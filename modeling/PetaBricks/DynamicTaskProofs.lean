import Mathlib.Algebra.BigOperators.Fin
import PetaBricks.DynamicTaskMoves

/-! # DynamicTask invariants — where every signal and every task is

    Two conservation laws carry the safety of the task system.  A registration
    of `a` is a *token* that lies in some task's `dependents`, or in the hands of
    a thread that moves or signals it; `numPredecessors` counts `a`'s tokens.
    A task that became ready is *active* in exactly one place: a queue, or one
    thread's call stack. -/

namespace PbDynamicTask

open PbTransition PbCallStack

variable {ι : Type} [DecidableEq ι] {cls : ι → TaskClass}

/-! ## Counting frames -/

/-- Tokens of `a` in a thread's hands. -/
def Frame.tokens (a : ι) : Frame ι → Nat
  | .handDown _ tmp => tmp.count a
  | .decrementAll tmp _ => tmp.count a
  | _ => 0

/-- The frame dispatches, runs or completes `a`. -/
def Frame.active (a : ι) : Frame ι → Nat
  | .dispatch x => if x = a then 1 else 0
  | .runWrapper x _ => if x = a then 1 else 0
  | .run x => if x = a then 1 else 0
  | .gpuRun x => if x = a then 1 else 0
  | .completeTaskDeps x _ => if x = a then 1 else 0
  | _ => 0

/-- The frame is about to start `a`. -/
def Frame.starting (a : ι) : Frame ι → Nat
  | .dispatch x => if x = a then 1 else 0
  | .runWrapper x _ => if x = a then 1 else 0
  | _ => 0

/-- The frame is about to hand `a` to a queue. -/
def Frame.dispatching (a : ι) : Frame ι → Nat
  | .dispatch x => if x = a then 1 else 0
  | _ => 0

/-- The frame is about to complete `a`. -/
def Frame.completing (a : ι) : Frame ι → Nat
  | .completeTaskDeps x _ => if x = a then 1 else 0
  | _ => 0

/-- The frame is going to call `a.enqueue()`. -/
def Frame.owner (cont : ι → Option ι) (a : ι) : Frame ι → Nat
  | .enqueue x => if x = a then 1 else 0
  | .handDown x _ => if x = a then 1 else 0
  | .completeTaskDeps x _ => if cont x = some a then 1 else 0
  | _ => 0

/-- The frame is a call of `a.dependsOn`. -/
def Frame.registering (a : ι) : Frame ι → Nat
  | .dependsOn x _ => if x = a then 1 else 0
  | _ => 0

/-- Waits in a queue of this host, or at a remote host. -/
def State.queued (s : State ι) (a : ι) : Nat :=
  s.queue.count a + s.remoteOut.count a + s.gpuQueue.count a

/-- How often `a` is in a `dependents` list. -/
def listed [Fintype ι] (f : ι → Task ι) (a : ι) : Nat :=
  ∑ c, (f c).dependents.count a

/-- Registered and not yet signalled predecessors of `a`. -/
def State.tokens [Fintype ι] (s : State ι) (a : ι) : Nat :=
  listed s.task a + total (Frame.tokens a) s.threads

/-- The places where `a` is on its way to completion. -/
def State.active (s : State ι) (a : ι) : Nat :=
  s.queued a + total (Frame.active a) s.threads

/-- The event says that `a` started, here or elsewhere. -/
def Event.isStart (a : ι) : Event ι → Bool
  | .ran x => x == a
  | .cancelled x => x == a
  | .skipped x => x == a
  | .ranRemotely x => x == a
  | _ => false

/-- The event says that `a` was dispatched. -/
def Event.isDispatch (a : ι) : Event ι → Bool
  | .dispatched x _ => x == a
  | _ => false

/-- How often `a` started. -/
def State.started (s : State ι) (a : ι) : Nat := s.log.countP (Event.isStart a)

/-- How often `a` was dispatched. -/
def State.dispatched (s : State ι) (a : ι) : Nat :=
  s.log.countP (Event.isDispatch a)

/-- The phase of `a`. -/
def State.phase (s : State ι) (a : ι) : Phase := (s.task a).state.phase

/-- One in the ready phase. -/
def Phase.ready01 : Phase → Nat
  | .ready => 1
  | _ => 0

/-- One from the ready phase on. -/
def Phase.reached01 : Phase → Nat
  | .ready | .done => 1
  | _ => 0

@[simp] theorem ready01_eqs :
    Phase.new.ready01 = 0 ∧ Phase.pending.ready01 = 0 ∧
      Phase.ready.ready01 = 1 ∧ Phase.done.ready01 = 0 :=
  ⟨rfl, rfl, rfl, rfl⟩

@[simp] theorem reached01_eqs :
    Phase.new.reached01 = 0 ∧ Phase.pending.reached01 = 0 ∧
      Phase.ready.reached01 = 1 ∧ Phase.done.reached01 = 1 :=
  ⟨rfl, rfl, rfl, rfl⟩

@[simp] theorem phase_eqs :
    TaskState.new.phase = .new ∧ TaskState.remoteNew.phase = .new ∧
      TaskState.pending.phase = .pending ∧
      TaskState.remotePending.phase = .pending ∧
      TaskState.ready.phase = .ready ∧ TaskState.remoteReady.phase = .ready ∧
      TaskState.complete.phase = .done ∧ TaskState.continued.phase = .done :=
  ⟨rfl, rfl, rfl, rfl, rfl, rfl, rfl, rfl⟩

/-- One for a sealed task that is still new. -/
def owned01 : Bool → Phase → Nat
  | true, .new => 1
  | _, _ => 0

@[simp] theorem owned01_new : owned01 true .new = 1 := rfl

@[simp] theorem owned01_unsealed (p : Phase) : owned01 false p = 0 := rfl

@[simp] theorem owned01_past (b : Bool) :
    owned01 b .pending = 0 ∧ owned01 b .ready = 0 ∧ owned01 b .done = 0 := by
  cases b <;> exact ⟨rfl, rfl, rfl⟩

theorem owned01_le {b : Bool} {p : Phase} (h : 0 < owned01 b p) :
    b = true ∧ p = .new := by
  cases b with
  | false => exact absurd h (Nat.lt_irrefl 0)
  | true =>
      cases p with
      | new => exact ⟨rfl, rfl⟩
      | _ => exact absurd h (Nat.lt_irrefl 0)

theorem new_to_ready {p q : TaskState}
    (h : p = .new ∧ q = .ready ∨ p = .remoteNew ∧ q = .remoteReady) :
    p.phase = .new ∧ q.phase = .ready := by
  rcases h with ⟨rfl, rfl⟩ | ⟨rfl, rfl⟩ <;> exact ⟨rfl, rfl⟩

theorem new_to_pending {p q : TaskState}
    (h : p = .new ∧ q = .pending ∨ p = .remoteNew ∧ q = .remotePending) :
    p.phase = .new ∧ q.phase = .pending := by
  rcases h with ⟨rfl, rfl⟩ | ⟨rfl, rfl⟩ <;> exact ⟨rfl, rfl⟩

theorem pending_to_ready {p q : TaskState}
    (h : p = .pending ∧ q = .ready ∨ p = .remotePending ∧ q = .remoteReady) :
    p.phase = .pending ∧ q.phase = .ready := by
  rcases h with ⟨rfl, rfl⟩ | ⟨rfl, rfl⟩ <;> exact ⟨rfl, rfl⟩

theorem ready_of_ready01 {p : Phase} (h : 0 < p.ready01) : p = .ready := by
  cases p with
  | ready => rfl
  | _ => exact absurd h (Nat.lt_irrefl 0)

/-- Storing a task changes the lists by that task's list. -/
theorem listed_update [Fintype ι] (f : ι → Task ι) (b : ι) (t : Task ι)
    (a : ι) :
    listed (Function.update f b t) a + (f b).dependents.count a
      = listed f a + t.dependents.count a :=
  sum_update (fun t => t.dependents.count a) f b t

section Update

variable (f : ι → Task ι) (a x : ι) (t : Task ι)

theorem update_state : (Function.update f a t x).state
    = if x = a then t.state else (f x).state := by
  rw [Function.update_apply]; split <;> rfl

theorem update_numPredecessors : (Function.update f a t x).numPredecessors
    = if x = a then t.numPredecessors else (f x).numPredecessors := by
  rw [Function.update_apply]; split <;> rfl

theorem update_dependents : (Function.update f a t x).dependents
    = if x = a then t.dependents else (f x).dependents := by
  rw [Function.update_apply]; split <;> rfl

theorem update_continuation : (Function.update f a t x).continuation
    = if x = a then t.continuation else (f x).continuation := by
  rw [Function.update_apply]; split <;> rfl

/-- A field stored back unchanged. -/
theorem keep_state : (if x = a then (f a).state else (f x).state)
    = (f x).state :=
  ite_eq_right_iff.mpr fun h => by rw [h]

theorem keep_numPredecessors :
    (if x = a then (f a).numPredecessors else (f x).numPredecessors)
      = (f x).numPredecessors :=
  ite_eq_right_iff.mpr fun h => by rw [h]

theorem keep_dependents :
    (if x = a then (f a).dependents else (f x).dependents)
      = (f x).dependents :=
  ite_eq_right_iff.mpr fun h => by rw [h]

theorem keep_continuation :
    (if x = a then (f a).continuation else (f x).continuation)
      = (f x).continuation :=
  ite_eq_right_iff.mpr fun h => by rw [h]

end Update

attribute [local simp] State.setTask State.setStack State.note State.seal
  State.fail update_state update_numPredecessors update_dependents
  update_continuation keep_state keep_numPredecessors keep_dependents
  keep_continuation

/-- Erasing one occurrence. -/
theorem count_erase_add {a x : ι} {l : List ι} (h : a ∈ l) :
    (l.erase a).count x + (if a = x then 1 else 0) = l.count x := by
  by_cases hax : a = x
  · subst hax
    have hpos := List.count_pos_iff.mpr h
    rw [List.count_erase_self, if_pos rfl]
    omega
  · rw [List.count_erase_of_ne (Ne.symm hax), if_neg hax, Nat.add_zero]

theorem sealed_of_canSeal {s : State ι} {a : ι} (h : s.canSeal a = true) :
    s.sealed a = false := by
  simp only [State.canSeal, Bool.and_eq_true, Bool.not_eq_true'] at h
  exact h.1

theorem registering_of_canSeal {s : State ι} {a : ι}
    (h : s.canSeal a = true) : total (Frame.registering a) s.threads = 0 := by
  refine total_eq_zero fun f ⟨st, hst, hf⟩ => ?_
  simp only [State.canSeal, Bool.and_eq_true, List.all_eq_true] at h
  have hnot := h.2 st hst f hf
  cases f with
  | dependsOn x b =>
      have hxa : x ≠ a := by
        simpa [Frame.isDependsOn] using hnot
      exact if_neg hxa
  | _ => rfl

/-! ## The invariant -/

/-- What holds of every reachable state of the task system. -/
structure Inv [Fintype ι] (s : State ι) : Prop where
  /-- Ready tasks are active in one place, all others in none. -/
  active : ∀ a, s.active a = (s.phase a).ready01
  /-- A task past its predecessors started, or is on its way to. -/
  started : ∀ a, s.started a + s.queued a + total (Frame.starting a) s.threads
    = (s.phase a).reached01
  /-- A task past its predecessors was dispatched, or is about to be. -/
  dispatched : ∀ a,
    s.dispatched a + total (Frame.dispatching a) s.threads
      = (s.phase a).reached01
  /-- The counter counts the tokens. -/
  tokens : ∀ a, (s.task a).numPredecessors = s.tokens a
  /-- Every registration not yet signalled is a token. -/
  account : ∀ a, (s.task a).numPredecessors
    = s.log.count (.registered a) - s.log.count (.signalled a)
  pending : ∀ a, s.phase a = .pending → (s.task a).numPredecessors ≠ 0
  reached : ∀ a, (s.phase a).reached01 = 1 → (s.task a).numPredecessors = 0
  done : ∀ a, s.phase a = .done → (s.task a).dependents = []
  unsealed : ∀ a, s.sealed a = false → s.phase a = .new
  registering : ∀ a, s.sealed a = true →
    total (Frame.registering a) s.threads = 0
  /-- A continuation is set between `run()` and the end of
      `completeTaskDeps`. -/
  continuation : ∀ a, (s.task a).continuation ≠ none →
    (s.task a).state = .continued ∨
      0 < total (Frame.completing a) s.threads
  continued : ∀ a, (s.task a).state = .continued →
    (s.task a).continuation ≠ none
  /-- Between sealing and `enqueue` a task is in one thread's hands. -/
  owner : ∀ a,
    total (Frame.owner (fun t => (s.task t).continuation) a) s.threads
      = owned01 (s.sealed a) (s.phase a)

section Moves

variable [Fintype ι] {s s' : State ι} {i : Nat}

/-- The task of an active frame is ready. -/
theorem Inv.ready_of_frame (h : Inv s) {f : Frame ι} {a : ι}
    (hf : OnStack f s.threads) (ha : f.active a = 1) : s.phase a = .ready := by
  refine ready_of_ready01 ?_
  have h1 := le_total (w := Frame.active a) hf
  have h2 := h.active a
  unfold State.active at h2
  omega

theorem Inv.ready_of_queued (h : Inv s) {a : ι} (hq : 0 < s.queued a) :
    s.phase a = .ready := by
  refine ready_of_ready01 ?_
  have h2 := h.active a
  unfold State.active at h2
  omega

omit [DecidableEq ι] [Fintype ι] in
/-- The top frame of a thread is on a stack. -/
theorem onStack_top {i : Nat} {f : Frame ι} {st : List (Frame ι)}
    (hi : s.threads[i]? = some (f :: st)) : OnStack f s.threads :=
  (onStack_pop hi).mpr (Or.inl rfl)

omit [Fintype ι] in
/-- The log only grows. -/
theorem log_mono (hm : Move cls s i s') {e : Event ι} (he : e ∈ s.log) :
    e ∈ s'.log := by
  cases hm <;> simp [he]

theorem active_move (h : Inv s) (hm : Move cls s i s') :
    ∀ a, s'.active a = (s'.phase a).ready01 := by
  intro x
  have hx := h.active x
  unfold State.active State.queued State.phase at hx ⊢
  cases hm with
  | fail _ _ => exact hx
  | callDependsOn hi hs | callEnqueue hi hs =>
      simpa [total_push _ _ _ hi, set_self hi, Frame.active] using hx
  | @recvInitial st a hi hs hc hn =>
      have hnew := h.unsealed a (sealed_of_canSeal hs)
      rw [State.phase] at hnew
      by_cases hxa : x = a
      · subst hxa
        rw [hnew, ready01_eqs.1] at hx
        simp [set_self hi]
        omega
      · simp [set_self hi, hxa, Ne.symm hxa]
        omega
  | onComplete hi hq | pop hi hq =>
      have hcount := count_erase_add (x := x) hq
      simp [total_push _ _ _ hi, set_self hi, Frame.active]
      omega
  | gpuRunWrapper hi hq | gpuSkip hi hq | gpuRun hi hq =>
      simp [total_push _ _ _ hi, set_self hi, Frame.active]
      simp [hq, List.count_cons] at hx
      omega
  | gpuNotDone hq =>
      simp [List.count_cons]
      simp [hq, List.count_cons] at hx
      omega
  | @retNone st a hi | @retSome st a c hi hs =>
      have hpop := total_pop (Frame.active x) hi
      by_cases hxa : x = a <;>
        simp [total_push _ _ _ hi, Frame.active, hxa] at hpop hx ⊢ <;> omega
  | gpuRet hi | redirect hi _ _ | dependsOnNull hi _ _ | alreadyComplete hi _
  | inlined hi _ _ | run hi | released hi =>
      have hpop := total_pop (Frame.active x) hi
      simp [total_push _ _ _ hi, Frame.active] at hpop ⊢
      omega
  | @register st a b hi hab ha hb =>
      have hpop := total_pop (Frame.active x) hi
      by_cases hxa : x = a <;> by_cases hxb : x = b <;>
        simp [Frame.active, hxa, hxb, hab] at hpop hx ⊢ <;> omega
  | @enqueueReady st a q hi hq hn =>
      have hpop := total_pop (Frame.active x) hi
      obtain ⟨hold, hnew⟩ := new_to_ready hq
      by_cases hxa : x = a
      · subst hxa
        rw [hold, ready01_eqs.1] at hx
        simp [total_push _ _ _ hi, Frame.active, hnew] at hpop ⊢
        omega
      · simp [total_push _ _ _ hi, Frame.active, hxa, Ne.symm hxa] at hpop ⊢
        omega
  | @enqueuePending st a q hi hq hn =>
      have hpop := total_pop (Frame.active x) hi
      obtain ⟨hold, hnew⟩ := new_to_pending hq
      by_cases hxa : x = a
      · subst hxa
        rw [hold, ready01_eqs.1] at hx
        have hq01 : q.phase.ready01 = 0 := by rw [hnew]; rfl
        simp only [Frame.active] at hpop
        simp
        omega
      · simp [Frame.active, hxa] at hpop ⊢
        omega
  | pushLocal hi _ _ | enqueueRemote hi _ _ | addTask hi _ _ =>
      have hpop := total_pop (Frame.active x) hi
      simp [Frame.active, List.count_cons] at hpop ⊢
      omega
  | @enqueueLocal st a hi hq hc =>
      have hpop := total_pop (Frame.active x) hi
      by_cases hxa : x = a
      · subst hxa
        rw [hq] at hx
        simp only [phase_eqs, ready01_eqs] at hx
        simp [Frame.active] at hpop ⊢
        omega
      · simp [Frame.active, hxa, Ne.symm hxa] at hpop ⊢
        omega
  | @cancel st a hi =>
      have hpop := total_pop (Frame.active x) hi
      by_cases hxa : x = a <;>
        simp [total_push _ _ _ hi, Frame.active, hxa] at hpop hx ⊢ <;> omega
  | @continued st a c ab hi hc | @complete st a ab hi hc =>
      have hpop := total_pop (Frame.active x) hi
      have hready := h.ready_of_frame (a := a) (onStack_top hi)
        (by simp [Frame.active])
      rw [State.phase] at hready
      by_cases hxa : x = a
      · subst hxa
        simp [total_push _ _ _ hi, Frame.active, hready] at hpop hx ⊢; omega
      · simp [total_push _ _ _ hi, Frame.active, hxa, Ne.symm hxa] at hpop ⊢
        omega
  | @handDown st c tmp hi =>
      have hpop := total_pop (Frame.active x) hi
      by_cases hxa : x = c <;>
        simp [total_push _ _ _ hi, Frame.active, hxa] at hpop hx ⊢ <;> omega
  | @signal st r rest ab hi hn =>
      have hpop := total_pop (Frame.active x) hi
      by_cases hxa : x = r <;>
        simp [total_push _ _ _ hi, Frame.active, hxa] at hpop hx ⊢ <;> omega
  | @release st r rest q hi hq hn | @releaseCancel st r rest q hi hq hn =>
      have hpop := total_pop (Frame.active x) hi
      obtain ⟨hold, hnew⟩ := pending_to_ready hq
      by_cases hxa : x = r
      · subst hxa
        rw [hold, ready01_eqs.2.1] at hx
        simp [total_push _ _ _ hi, Frame.active, hnew] at hpop ⊢
        omega
      · simp [total_push _ _ _ hi, Frame.active, hxa, Ne.symm hxa] at hpop ⊢
        omega

theorem started_move (h : Inv s) (hm : Move cls s i s') :
    ∀ a, s'.started a + s'.queued a + total (Frame.starting a) s'.threads
      = (s'.phase a).reached01 := by
  intro x
  have hx := h.started x
  unfold State.started State.queued State.phase at hx ⊢
  cases hm with
  | fail _ _ => exact hx
  | callDependsOn hi hs | callEnqueue hi hs =>
      simpa [total_push _ _ _ hi, set_self hi, Frame.starting, Event.isStart]
        using hx
  | @recvInitial st a hi hs hc hn =>
      have hnew := h.unsealed a (sealed_of_canSeal hs)
      rw [State.phase] at hnew
      by_cases hxa : x = a
      · subst hxa
        rw [hnew, reached01_eqs.1] at hx
        simp [set_self hi, Event.isStart]
        omega
      · simp [set_self hi, Event.isStart, hxa, Ne.symm hxa]
        omega
  | onComplete hi hq | pop hi hq =>
      have hcount := count_erase_add (x := x) hq
      simp [total_push _ _ _ hi, set_self hi, Frame.starting, Event.isStart,
        List.countP_cons]
      omega
  | gpuRunWrapper hi hq | gpuSkip hi hq | gpuRun hi hq =>
      simp [total_push _ _ _ hi, set_self hi, Frame.starting, Event.isStart,
        List.countP_cons]
      simp [hq, List.count_cons] at hx
      omega
  | gpuNotDone hq =>
      simp [List.count_cons]
      simp [hq, List.count_cons] at hx
      omega
  | @retNone st a hi | @retSome st a c hi hs =>
      have hpop := total_pop (Frame.starting x) hi
      by_cases hxa : x = a <;>
        simp [total_push _ _ _ hi, Frame.starting, hxa] at hpop hx ⊢ <;> omega
  | gpuRet hi | redirect hi _ _ | dependsOnNull hi _ _ | alreadyComplete hi _
  | inlined hi _ _ | run hi | released hi =>
      have hpop := total_pop (Frame.starting x) hi
      simp [total_push _ _ _ hi, Frame.starting, Event.isStart,
        List.countP_cons] at hpop ⊢
      omega
  | @register st a b hi hab ha hb =>
      have hpop := total_pop (Frame.starting x) hi
      by_cases hxa : x = a <;> by_cases hxb : x = b <;>
        simp [Frame.starting, Event.isStart, hxa, hxb, hab] at hpop hx ⊢ <;>
        omega
  | @enqueueReady st a q hi hq hn =>
      have hpop := total_pop (Frame.starting x) hi
      obtain ⟨hold, hnew⟩ := new_to_ready hq
      by_cases hxa : x = a
      · subst hxa
        rw [hold, reached01_eqs.1] at hx
        simp [total_push _ _ _ hi, Frame.starting, hnew] at hpop ⊢
        omega
      · simp [total_push _ _ _ hi, Frame.starting, hxa, Ne.symm hxa] at hpop ⊢
        omega
  | @enqueuePending st a q hi hq hn =>
      have hpop := total_pop (Frame.starting x) hi
      obtain ⟨hold, hnew⟩ := new_to_pending hq
      by_cases hxa : x = a
      · subst hxa
        rw [hold, reached01_eqs.1] at hx
        have hq01 : q.phase.reached01 = 0 := by rw [hnew]; rfl
        simp only [Frame.starting] at hpop
        simp
        omega
      · simp [Frame.starting, hxa] at hpop ⊢
        omega
  | pushLocal hi _ _ | enqueueRemote hi _ _ | addTask hi _ _ =>
      have hpop := total_pop (Frame.starting x) hi
      simp [Frame.starting, Event.isStart, List.count_cons] at hpop ⊢
      omega
  | @enqueueLocal st a hi hq hc =>
      have hpop := total_pop (Frame.starting x) hi
      by_cases hxa : x = a
      · subst hxa
        rw [hq] at hx
        simp only [phase_eqs, reached01_eqs] at hx
        simp [Frame.starting, Event.isStart] at hpop ⊢
        omega
      · simp [Frame.starting, Event.isStart, hxa, Ne.symm hxa] at hpop ⊢
        omega
  | @cancel st a hi =>
      have hpop := total_pop (Frame.starting x) hi
      by_cases hxa : x = a
      · subst hxa
        simp [total_push _ _ _ hi, Frame.starting, Event.isStart] at hpop hx ⊢
        omega
      · simp [total_push _ _ _ hi, Frame.starting, Event.isStart, hxa,
          Ne.symm hxa] at hpop hx ⊢
        omega
  | @continued st a c ab hi hc | @complete st a ab hi hc =>
      have hpop := total_pop (Frame.starting x) hi
      have hready := h.ready_of_frame (a := a) (onStack_top hi)
        (by simp [Frame.active])
      rw [State.phase] at hready
      by_cases hxa : x = a
      · subst hxa
        simp [total_push _ _ _ hi, Frame.starting, hready] at hpop hx ⊢; omega
      · simp [total_push _ _ _ hi, Frame.starting, hxa] at hpop ⊢
        omega
  | @handDown st c tmp hi =>
      have hpop := total_pop (Frame.starting x) hi
      by_cases hxa : x = c <;>
        simp [total_push _ _ _ hi, Frame.starting, hxa] at hpop hx ⊢ <;> omega
  | @signal st r rest ab hi hn =>
      have hpop := total_pop (Frame.starting x) hi
      by_cases hxa : x = r <;>
        simp [total_push _ _ _ hi, Frame.starting, Event.isStart, hxa]
          at hpop hx ⊢ <;> omega
  | @release st r rest q hi hq hn | @releaseCancel st r rest q hi hq hn =>
      have hpop := total_pop (Frame.starting x) hi
      obtain ⟨hold, hnew⟩ := pending_to_ready hq
      by_cases hxa : x = r
      · subst hxa
        rw [hold, reached01_eqs.2.1] at hx
        simp [total_push _ _ _ hi, Frame.starting, Event.isStart, hnew] at hpop ⊢
        omega
      · simp [total_push _ _ _ hi, Frame.starting, Event.isStart, hxa, Ne.symm hxa] at hpop ⊢
        omega

theorem dispatched_move (h : Inv s) (hm : Move cls s i s') :
    ∀ a, s'.dispatched a + total (Frame.dispatching a) s'.threads
      = (s'.phase a).reached01 := by
  intro x
  have hx := h.dispatched x
  unfold State.dispatched State.phase at hx ⊢
  cases hm with
  | fail _ _ => exact hx
  | callDependsOn hi hs | callEnqueue hi hs =>
      simpa [total_push _ _ _ hi, set_self hi, Frame.dispatching,
        Event.isDispatch] using hx
  | @recvInitial st a hi hs hc hn =>
      have hnew := h.unsealed a (sealed_of_canSeal hs)
      rw [State.phase] at hnew
      by_cases hxa : x = a
      · subst hxa
        rw [hnew, reached01_eqs.1] at hx
        simp [set_self hi, Event.isDispatch]
        omega
      · simp [set_self hi, Event.isDispatch, hxa, Ne.symm hxa]
        omega
  | onComplete hi _ | pop hi _ | gpuRunWrapper hi _ | gpuSkip hi _
  | gpuRun hi _ =>
      simpa [total_push _ _ _ hi, set_self hi, Frame.dispatching,
        Event.isDispatch] using hx
  | gpuNotDone hq => exact hx
  | @retNone st a hi | @retSome st a c hi hs =>
      have hpop := total_pop (Frame.dispatching x) hi
      by_cases hxa : x = a <;>
        simp [total_push _ _ _ hi, Frame.dispatching, hxa] at hpop hx ⊢ <;>
        omega
  | gpuRet hi | redirect hi _ _ | dependsOnNull hi _ _ | alreadyComplete hi _
  | inlined hi _ _ | run hi | released hi | pushLocal hi _ _
  | enqueueRemote hi _ _ | addTask hi _ _ =>
      have hpop := total_pop (Frame.dispatching x) hi
      simp [total_push _ _ _ hi, Frame.dispatching, Event.isDispatch,
        List.countP_cons] at hpop ⊢
      omega
  | @register st a b hi hab ha hb =>
      have hpop := total_pop (Frame.dispatching x) hi
      by_cases hxa : x = a <;> by_cases hxb : x = b <;>
        simp [Frame.dispatching, Event.isDispatch, hxa, hxb, hab]
          at hpop hx ⊢ <;> omega
  | @enqueueReady st a q hi hq hn =>
      have hpop := total_pop (Frame.dispatching x) hi
      obtain ⟨hold, hnew⟩ := new_to_ready hq
      by_cases hxa : x = a
      · subst hxa
        rw [hold, reached01_eqs.1] at hx
        simp [total_push _ _ _ hi, Frame.dispatching, hnew] at hpop ⊢
        omega
      · simp [total_push _ _ _ hi, Frame.dispatching, hxa, Ne.symm hxa] at hpop ⊢
        omega
  | @enqueuePending st a q hi hq hn =>
      have hpop := total_pop (Frame.dispatching x) hi
      obtain ⟨hold, hnew⟩ := new_to_pending hq
      by_cases hxa : x = a
      · subst hxa
        rw [hold, reached01_eqs.1] at hx
        have hq01 : q.phase.reached01 = 0 := by rw [hnew]; rfl
        simp only [Frame.dispatching] at hpop
        simp
        omega
      · simp [Frame.dispatching, hxa] at hpop ⊢
        omega
  | @enqueueLocal st a hi hq hc =>
      have hpop := total_pop (Frame.dispatching x) hi
      by_cases hxa : x = a
      · subst hxa
        rw [hq] at hx
        simp only [phase_eqs, reached01_eqs] at hx
        simp [Frame.dispatching, Event.isDispatch] at hpop ⊢
        omega
      · simp [Frame.dispatching, Event.isDispatch, hxa, Ne.symm hxa] at hpop ⊢
        omega
  | @cancel st a hi =>
      have hpop := total_pop (Frame.dispatching x) hi
      by_cases hxa : x = a <;>
        simp [total_push _ _ _ hi, Frame.dispatching, Event.isDispatch, hxa]
          at hpop hx ⊢ <;> omega
  | @continued st a c ab hi hc | @complete st a ab hi hc =>
      have hpop := total_pop (Frame.dispatching x) hi
      have hready := h.ready_of_frame (a := a) (onStack_top hi)
        (by simp [Frame.active])
      rw [State.phase] at hready
      by_cases hxa : x = a
      · subst hxa
        simp [total_push _ _ _ hi, Frame.dispatching, hready] at hpop hx ⊢
        omega
      · simp [total_push _ _ _ hi, Frame.dispatching, hxa] at hpop ⊢
        omega
  | @handDown st c tmp hi =>
      have hpop := total_pop (Frame.dispatching x) hi
      by_cases hxa : x = c <;>
        simp [total_push _ _ _ hi, Frame.dispatching, hxa] at hpop hx ⊢ <;>
        omega
  | @signal st r rest ab hi hn =>
      have hpop := total_pop (Frame.dispatching x) hi
      by_cases hxa : x = r <;>
        simp [total_push _ _ _ hi, Frame.dispatching, Event.isDispatch, hxa]
          at hpop hx ⊢ <;> omega
  | @release st r rest q hi hq hn | @releaseCancel st r rest q hi hq hn =>
      have hpop := total_pop (Frame.dispatching x) hi
      obtain ⟨hold, hnew⟩ := pending_to_ready hq
      by_cases hxa : x = r
      · subst hxa
        rw [hold, reached01_eqs.2.1] at hx
        simp [total_push _ _ _ hi, Frame.dispatching, Event.isDispatch, hnew] at hpop ⊢
        omega
      · simp [total_push _ _ _ hi, Frame.dispatching, Event.isDispatch, hxa, Ne.symm hxa] at hpop ⊢
        omega

theorem tokens_move (h : Inv s) (hm : Move cls s i s') :
    ∀ a, (s'.task a).numPredecessors = s'.tokens a := by
  intro x
  have hx := h.tokens x
  unfold State.tokens at hx ⊢
  cases hm with
  | fail _ _ => exact hx
  | callDependsOn hi _ | callEnqueue hi _ | onComplete hi _ | pop hi _
  | gpuRunWrapper hi _ | gpuSkip hi _ | gpuRun hi _ =>
      simpa [total_push _ _ _ hi, set_self hi, Frame.tokens] using hx
  | @recvInitial st a hi hs hc hn =>
      have hlist := listed_update s.task a { s.task a with state := .ready } x
      by_cases hxa : x = a <;> simp [set_self hi, hxa] at hx hlist ⊢ <;> omega
  | gpuNotDone hq => exact hx
  | gpuRet hi | redirect hi _ _ | dependsOnNull hi _ _ | alreadyComplete hi _
  | inlined hi _ _ | run hi | released hi | pushLocal hi _ _
  | enqueueRemote hi _ _ | addTask hi _ _ =>
      have hpop := total_pop (Frame.tokens x) hi
      simp [total_push _ _ _ hi, Frame.tokens] at hpop ⊢
      omega
  | @retNone st a hi =>
      have hpop := total_pop (Frame.tokens x) hi
      have hlist := listed_update s.task a
        { s.task a with continuation := none } x
      by_cases hxa : x = a <;>
        simp [total_push _ _ _ hi, Frame.tokens, hxa] at hpop hlist hx ⊢ <;>
        omega
  | @retSome st a c hi hs =>
      have hpop := total_pop (Frame.tokens x) hi
      have hlist := listed_update s.task a
        { s.task a with continuation := some c } x
      by_cases hxa : x = a <;>
        simp [total_push _ _ _ hi, Frame.tokens, hxa] at hpop hlist hx ⊢ <;>
        omega
  | @register st a b hi hab ha hb =>
      have hpop := total_pop (Frame.tokens x) hi
      have hlist := listed_update s.task b { s.task b with
        dependents := (s.task b).dependents ++ [a] } x
      have hlist' := listed_update
        (Function.update s.task b { s.task b with
          dependents := (s.task b).dependents ++ [a] }) a
        { s.task a with
          numPredecessors := (s.task a).numPredecessors + 1 } x
      simp only [Frame.tokens] at hpop
      simp only [update_dependents, if_neg (Ne.symm hab)] at hlist hlist'
      by_cases hxa : x = a
      · subst hxa
        simp at hlist ⊢
        omega
      · rw [List.count_append, List.count_singleton, if_neg (by
          simpa using Ne.symm hxa)] at hlist
        have hsame : (if x = b then (s.task b).numPredecessors
            else (s.task x).numPredecessors) = (s.task x).numPredecessors :=
          ite_eq_right_iff.mpr fun hxb => by rw [hxb]
        simp [hxa, hsame]
        omega
  | @enqueueReady st a q hi hq hn | @enqueuePending st a q hi hq hn =>
      have hpop := total_pop (Frame.tokens x) hi
      have hlist := listed_update s.task a { s.task a with state := q } x
      by_cases hxa : x = a <;>
        simp [total_push _ _ _ hi, Frame.tokens, hxa] at hpop hlist hx ⊢ <;>
        omega
  | @enqueueLocal st a hi hq hc =>
      have hpop := total_pop (Frame.tokens x) hi
      have hlist := listed_update s.task a { s.task a with state := .ready } x
      by_cases hxa : x = a <;>
        simp [Frame.tokens, hxa] at hpop hlist hx ⊢ <;> omega
  | @cancel st a hi =>
      have hpop := total_pop (Frame.tokens x) hi
      have hlist := listed_update s.task a
        { s.task a with continuation := none } x
      by_cases hxa : x = a <;>
        simp [total_push _ _ _ hi, Frame.tokens, hxa] at hpop hlist hx ⊢ <;>
        omega
  | @continued st a c ab hi hc =>
      have hpop := total_pop (Frame.tokens x) hi
      have hlist := listed_update s.task a
        { s.task a with dependents := [], state := .continued } x
      by_cases hxa : x = a <;>
        simp [total_push _ _ _ hi, Frame.tokens, hxa] at hpop hlist hx ⊢ <;>
        omega
  | @complete st a ab hi hc =>
      have hpop := total_pop (Frame.tokens x) hi
      have hlist := listed_update s.task a
        { s.task a with dependents := [], state := .complete } x
      by_cases hxa : x = a <;>
        simp [total_push _ _ _ hi, Frame.tokens, hxa] at hpop hlist hx ⊢ <;>
        omega
  | @handDown st c tmp hi =>
      have hpop := total_pop (Frame.tokens x) hi
      have hlist := listed_update s.task c { s.task c with
        dependents := (s.task c).dependents ++ tmp } x
      by_cases hxa : x = c <;>
        simp [total_push _ _ _ hi, Frame.tokens, hxa] at hpop hlist hx ⊢ <;>
        omega
  | @signal st r rest ab hi hn =>
      have hpop := total_pop (Frame.tokens x) hi
      have hlist := listed_update s.task r { s.task r with
        numPredecessors := (s.task r).numPredecessors - 1 } x
      by_cases hxa : x = r
      · subst hxa
        simp [total_push _ _ _ hi, Frame.tokens] at hpop hlist ⊢
        omega
      · simp [total_push _ _ _ hi, Frame.tokens, hxa, Ne.symm hxa]
          at hpop hlist ⊢
        omega
  | @release st r rest q hi hq hn | @releaseCancel st r rest q hi hq hn =>
      have hpop := total_pop (Frame.tokens x) hi
      have hlist := listed_update s.task r { s.task r with
        numPredecessors := (s.task r).numPredecessors - 1, state := q } x
      by_cases hxa : x = r
      · subst hxa
        simp [total_push _ _ _ hi, Frame.tokens] at hpop hlist ⊢
        omega
      · simp [total_push _ _ _ hi, Frame.tokens, hxa, Ne.symm hxa]
          at hpop hlist ⊢
        omega

theorem account_move (h : Inv s) (hm : Move cls s i s') :
    ∀ a, (s'.task a).numPredecessors
      = s'.log.count (.registered a) - s'.log.count (.signalled a) := by
  intro x
  have hx := h.account x
  cases hm with
  | fail _ _ | callEnqueue _ _ | pop _ _ | gpuRunWrapper _ _ | gpuNotDone _
  | gpuRet _ | redirect _ _ _ | dependsOnNull _ _ _ | alreadyComplete _ _
  | released _ => exact hx
  | callDependsOn _ _ | onComplete _ _ | gpuSkip _ _ | gpuRun _ _
  | inlined _ _ _ | run _ | pushLocal _ _ _ | enqueueRemote _ _ _
  | addTask _ _ _ => simpa using hx
  | @recvInitial st a | @retNone st a | @retSome st a
  | @enqueueReady st a | @enqueuePending st a | @enqueueLocal st a
  | @cancel st a | @continued st a | @complete st a
  | @handDown st a =>
      by_cases hxa : x = a <;> simp [hxa] at hx ⊢ <;> omega
  | @register st a b hi hab ha hb =>
      have hsame : (if x = b then (s.task b).numPredecessors
          else (s.task x).numPredecessors) = (s.task x).numPredecessors :=
        ite_eq_right_iff.mpr fun hxb => by rw [hxb]
      by_cases hxa : x = a
      · subst hxa; simp; omega
      · simp [hxa, Ne.symm hxa, hsame]; omega
  | @signal st r rest ab hi hn | @release st r rest q hi hq hn
  | @releaseCancel st r rest q hi hq hn =>
      by_cases hxa : x = r
      · subst hxa; simp; omega
      · simp [hxa, Ne.symm hxa]; omega

/-- A task has tokens left exactly while it waits. -/
theorem counter_move (h : Inv s) (hm : Move cls s i s') (x : ι) :
    (s'.phase x = .pending → (s'.task x).numPredecessors ≠ 0) ∧
    ((s'.phase x).reached01 = 1 → (s'.task x).numPredecessors = 0) := by
  have hp := h.pending x
  have hr := h.reached x
  cases hm with
  | fail _ _ | callDependsOn _ _ | callEnqueue _ _ | onComplete _ _ | pop _ _
  | gpuRunWrapper _ _ | gpuSkip _ _ | gpuRun _ _ | gpuNotDone _ | gpuRet _
  | redirect _ _ _ | dependsOnNull _ _ _ | alreadyComplete _ _
  | inlined _ _ _ | run _ | pushLocal _ _ _ | enqueueRemote _ _ _
  | addTask _ _ _ | released _ => exact ⟨hp, hr⟩
  | @retNone st a | @retSome st a | @cancel st a | @handDown st a =>
      unfold State.phase at hp hr ⊢
      by_cases hxa : x = a <;> simp [hxa] at hp hr ⊢ <;> exact ⟨hp, hr⟩
  | @recvInitial st a hi hs hc hn =>
      unfold State.phase at hp hr ⊢
      by_cases hxa : x = a
      · subst hxa; simpa using hn
      · simp [hxa]; exact ⟨hp, hr⟩
  | @register st a b hi hab ha hb =>
      unfold State.phase at hp hr ⊢
      by_cases hxa : x = a
      · subst hxa; simp [ha]
      · by_cases hxb : x = b
        · subst hxb; simp [hab]; exact ⟨hp, hr⟩
        · simp [hxa, hxb]; exact ⟨hp, hr⟩
  | @enqueueReady st a q hi hq hn =>
      obtain ⟨-, hnew⟩ := new_to_ready hq
      unfold State.phase at hp hr ⊢
      by_cases hxa : x = a
      · subst hxa; simp [hnew, hn]
      · simp [hxa]; exact ⟨hp, hr⟩
  | @enqueuePending st a q hi hq hn =>
      obtain ⟨-, hnew⟩ := new_to_pending hq
      unfold State.phase at hp hr ⊢
      by_cases hxa : x = a
      · subst hxa; simp [hnew, hn]
      · simp [hxa]; exact ⟨hp, hr⟩
  | @enqueueLocal st a hi hq hc =>
      unfold State.phase at hp hr ⊢
      by_cases hxa : x = a
      · subst hxa
        rw [hq] at hr
        simpa using hr rfl
      · simp [hxa]; exact ⟨hp, hr⟩
  | @continued st a c ab hi hc | @complete st a ab hi hc =>
      have hready := h.ready_of_frame (a := a) (onStack_top hi)
        (by simp [Frame.active])
      by_cases hxa : x = a
      · subst hxa
        simpa [State.phase] using hr (by rw [hready]; rfl)
      · simp [State.phase, hxa] at hp hr ⊢; exact ⟨hp, hr⟩
  | @signal st r rest ab hi hn =>
      by_cases hxa : x = r
      · subst hxa
        -- the token being signalled shows that the counter was positive
        have htok := h.tokens x
        have hpop := total_pop (Frame.tokens x) hi
        simp only [State.tokens, Frame.tokens, List.count_cons_self]
          at htok hpop
        simp only [State.phase] at hr ⊢
        simp
        refine ⟨fun hph => ?_, fun hph => ?_⟩
        · have := hn hph; omega
        · have := hr hph; omega
      · simp [State.phase, hxa] at hp hr ⊢; exact ⟨hp, hr⟩
  | @release st r rest q hi hq hn | @releaseCancel st r rest q hi hq hn =>
      obtain ⟨-, hnew⟩ := pending_to_ready hq
      unfold State.phase at hp hr ⊢
      by_cases hxa : x = r
      · subst hxa; simp [hnew, hn]
      · simp [hxa]; exact ⟨hp, hr⟩

/-- A task that some thread is going to enqueue is sealed and new. -/
theorem Inv.sealed_new_of_owner (h : Inv s) {f : Frame ι} {a : ι}
    (hf : OnStack f s.threads)
    (ho : f.owner (fun t => (s.task t).continuation) a = 1) :
    s.sealed a = true ∧ s.phase a = .new := by
  refine owned01_le ?_
  have h1 := le_total (w := Frame.owner (fun t => (s.task t).continuation) a) hf
  have h2 := h.owner a
  omega

theorem done_move (h : Inv s) (hm : Move cls s i s') :
    ∀ a, s'.phase a = .done → (s'.task a).dependents = [] := by
  intro x
  have hx := h.done x
  cases hm with
  | fail _ _ | callDependsOn _ _ | callEnqueue _ _ | onComplete _ _ | pop _ _
  | gpuRunWrapper _ _ | gpuSkip _ _ | gpuRun _ _ | gpuNotDone _ | gpuRet _
  | redirect _ _ _ | dependsOnNull _ _ _ | alreadyComplete _ _
  | inlined _ _ _ | run _ | pushLocal _ _ _ | enqueueRemote _ _ _
  | addTask _ _ _ | released _ => exact hx
  | @retNone st a | @retSome st a | @cancel st a | @signal st a =>
      unfold State.phase at hx ⊢
      by_cases hxa : x = a <;> simp [hxa] at hx ⊢ <;> exact hx
  | @recvInitial st a | @enqueueLocal st a =>
      unfold State.phase at hx ⊢
      by_cases hxa : x = a
      · simp [hxa]
      · simp [hxa]; exact hx
  | @continued st a | @complete st a =>
      unfold State.phase at hx ⊢
      by_cases hxa : x = a
      · simp [hxa]
      · simp [hxa]; exact hx
  | @register st a b hi hab ha hb =>
      unfold State.phase at hx ⊢
      by_cases hxa : x = a
      · subst hxa; simp [ha]
      · by_cases hxb : x = b
        · subst hxb; simp [hab, hb]
        · simp [hxa, hxb]; exact hx
  | @enqueueReady st a q hi hq hn =>
      obtain ⟨-, hnew⟩ := new_to_ready hq
      unfold State.phase at hx ⊢
      by_cases hxa : x = a
      · simp [hxa, hnew]
      · simp [hxa]; exact hx
  | @enqueuePending st a q hi hq hn =>
      obtain ⟨-, hnew⟩ := new_to_pending hq
      unfold State.phase at hx ⊢
      by_cases hxa : x = a
      · simp [hxa, hnew]
      · simp [hxa]; exact hx
  | @handDown st c tmp hi =>
      obtain ⟨-, hnew⟩ := h.sealed_new_of_owner (a := c) (onStack_top hi)
        (by simp [Frame.owner])
      unfold State.phase at hx hnew ⊢
      by_cases hxa : x = c
      · simp [hxa, hnew]
      · simp [hxa]; exact hx
  | @release st r rest q hi hq hn | @releaseCancel st r rest q hi hq hn =>
      obtain ⟨-, hnew⟩ := pending_to_ready hq
      unfold State.phase at hx ⊢
      by_cases hxa : x = r
      · simp [hxa, hnew]
      · simp [hxa]; exact hx

theorem unsealed_move (h : Inv s) (hm : Move cls s i s') :
    ∀ a, s'.sealed a = false → s'.phase a = .new := by
  intro x hs'
  have hx := h.unsealed x
  cases hm with
  | fail _ _ | callDependsOn _ _ | onComplete _ _ | pop _ _
  | gpuRunWrapper _ _ | gpuSkip _ _ | gpuRun _ _ | gpuNotDone _ | gpuRet _
  | redirect _ _ _ | dependsOnNull _ _ _ | alreadyComplete _ _
  | inlined _ _ _ | run _ | pushLocal _ _ _ | enqueueRemote _ _ _
  | addTask _ _ _ | released _ => exact hx hs'
  | @callEnqueue st a =>
      by_cases hxa : x = a
      · simp [hxa] at hs'
      · simp [Function.update_of_ne hxa] at hs'; exact hx hs'
  | @recvInitial st a =>
      by_cases hxa : x = a
      · simp [hxa] at hs'
      · simp [Function.update_of_ne hxa] at hs'
        simpa [State.phase, hxa] using hx hs'
  | @retSome st a c =>
      by_cases hxc : x = c
      · simp [hxc] at hs'
      · simp [Function.update_of_ne hxc] at hs'
        unfold State.phase at hx ⊢
        by_cases hxa : x = a <;> simp [hxa] at hx hs' ⊢ <;> exact hx hs'
  | @retNone st a | @cancel st a | @signal st a | @handDown st a =>
      unfold State.phase at hx ⊢
      by_cases hxa : x = a <;> simp [hxa] at hx hs' ⊢ <;> exact hx hs'
  | @register st a b hi hab ha hb =>
      unfold State.phase at hx ⊢
      by_cases hxa : x = a
      · subst hxa; simp [ha]
      · by_cases hxb : x = b
        · subst hxb; simp [hab]; exact hx hs'
        · simp [hxa, hxb]; exact hx hs'
  | @enqueueReady st a q hi hq hn | @enqueuePending st a q hi hq hn =>
      by_cases hxa : x = a
      · subst hxa
        obtain ⟨hsl, -⟩ := h.sealed_new_of_owner (a := x) (onStack_top hi)
          (by simp [Frame.owner])
        exact absurd (hsl.symm.trans hs') Bool.noConfusion
      · simpa [State.phase, hxa] using hx hs'
  | @enqueueLocal st a hi hq hc =>
      by_cases hxa : x = a
      · subst hxa
        have hnew := hx hs'
        rw [State.phase, hq] at hnew
        exact nomatch hnew
      · simpa [State.phase, hxa] using hx hs'
  | @continued st a c ab hi hc | @complete st a ab hi hc =>
      by_cases hxa : x = a
      · subst hxa
        have hready := h.ready_of_frame (a := x) (onStack_top hi)
          (by simp [Frame.active])
        exact nomatch hready.symm.trans (hx hs')
      · simpa [State.phase, hxa] using hx hs'
  | @release st r rest q hi hq hn | @releaseCancel st r rest q hi hq hn =>
      obtain ⟨hold, -⟩ := pending_to_ready hq
      by_cases hxa : x = r
      · subst hxa
        exact nomatch hold.symm.trans (hx hs')
      · simpa [State.phase, hxa] using hx hs'

theorem registering_move (h : Inv s) (hm : Move cls s i s') :
    ∀ a, s'.sealed a = true →
      total (Frame.registering a) s'.threads = 0 := by
  intro x hs'
  have hx := h.registering x
  cases hm with
  | fail _ _ | gpuNotDone _ => exact hx hs'
  | @callDependsOn st a b hi hs =>
      have hxa : a ≠ x := by
        rintro rfl
        exact absurd (hs.symm.trans hs') Bool.noConfusion
      simpa [total_push _ _ _ hi, set_self hi, Frame.registering, hxa]
        using hx hs'
  | @callEnqueue st a hi hs =>
      simp [total_push _ _ _ hi, set_self hi, Frame.registering]
      by_cases hxa : x = a
      · rw [hxa]; exact registering_of_canSeal hs
      · simp [Function.update_of_ne hxa] at hs'; exact hx hs'
  | @recvInitial st a hi hs hc hn =>
      simp [set_self hi]
      by_cases hxa : x = a
      · rw [hxa]; exact registering_of_canSeal hs
      · simp [Function.update_of_ne hxa] at hs'; exact hx hs'
  | onComplete hi _ | pop hi _ | gpuRunWrapper hi _ | gpuSkip hi _
  | gpuRun hi _ =>
      simpa [total_push _ _ _ hi, set_self hi, Frame.registering] using hx hs'
  | @retSome st a c hi hs =>
      have hpop := total_pop (Frame.registering x) hi
      have hold : total (Frame.registering x) s.threads = 0 := by
        by_cases hxc : x = c
        · rw [hxc]; exact registering_of_canSeal hs
        · simp [Function.update_of_ne hxc] at hs'; exact hx hs'
      simp [total_push _ _ _ hi, Frame.registering] at hpop ⊢
      omega
  | redirect hi _ _ =>
      have hpop := total_pop (Frame.registering x) hi
      have hold := hx hs'
      simp only [State.setStack, total_push _ _ _ hi, Frame.registering]
        at hpop ⊢
      omega
  | retNone hi | gpuRet hi | dependsOnNull hi _ _
  | alreadyComplete hi _ | register hi _ _ _ | enqueueReady hi _ _
  | enqueuePending hi _ _ | inlined hi _ _ | pushLocal hi _ _
  | enqueueLocal hi _ _ | enqueueRemote hi _ _ | addTask hi _ _ | run hi
  | cancel hi | continued hi _ | complete hi _ | handDown hi | released hi
  | signal hi _ | release hi _ _ | releaseCancel hi _ _ =>
      have hpop := total_pop (Frame.registering x) hi
      have hold := hx hs'
      simp [total_push _ _ _ hi, Frame.registering] at hpop ⊢
      omega

theorem continuation_move (h : Inv s) (hm : Move cls s i s') :
    ∀ a, (s'.task a).continuation ≠ none →
      (s'.task a).state = .continued ∨
        0 < total (Frame.completing a) s'.threads := by
  intro x
  have hx := h.continuation x
  cases hm with
  | fail _ _ | gpuNotDone _ => exact hx
  | callDependsOn hi _ | callEnqueue hi _ | pop hi _ | gpuRunWrapper hi _
  | gpuRun hi _ =>
      simpa [total_push _ _ _ hi, set_self hi, Frame.completing] using hx
  | onComplete hi _ | gpuSkip hi _ =>
      intro hc
      simp only [State.setStack, State.note, total_push _ _ _ hi, set_self hi]
      exact (hx hc).imp id fun hpos => by omega
  | @recvInitial st a hi hs hc hn =>
      have hnew := h.unsealed a (sealed_of_canSeal hs)
      rw [State.phase] at hnew
      by_cases hxa : x = a
      · subst hxa
        intro hcont
        simp [set_self hi] at hcont ⊢
        rcases hx hcont with hst | hpos
        · rw [hst] at hnew; exact nomatch hnew
        · exact hpos
      · simpa [set_self hi, hxa] using hx
  | @retNone st a hi =>
      have hpop := total_pop (Frame.completing x) hi
      by_cases hxa : x = a
      · simp [hxa]
      · simp [total_push _ _ _ hi, Frame.completing, hxa, Ne.symm hxa]
          at hpop ⊢
        rw [← hpop]; exact hx
  | @retSome st a c hi hs =>
      have hpop := total_pop (Frame.completing x) hi
      by_cases hxa : x = a
      · simp [hxa, total_push _ _ _ hi, Frame.completing]
      · simp [total_push _ _ _ hi, Frame.completing, hxa, Ne.symm hxa]
          at hpop ⊢
        rw [← hpop]; exact hx
  | @gpuRet st a hi =>
      have hpop := total_pop (Frame.completing x) hi
      intro hc
      simp [total_push _ _ _ hi, Frame.completing] at hpop ⊢
      exact (hx hc).imp id fun hpos => by omega
  | redirect hi _ _ | dependsOnNull hi _ _ | alreadyComplete hi _
  | inlined hi _ _ | pushLocal hi _ _ | enqueueRemote hi _ _
  | addTask hi _ _ | run hi | released hi =>
      have hpop := total_pop (Frame.completing x) hi
      simp [total_push _ _ _ hi, Frame.completing] at hpop ⊢
      rw [← hpop]; exact hx
  | @register st a b hi hab ha hb =>
      have hpop := total_pop (Frame.completing x) hi
      simp [Frame.completing] at hpop ⊢
      rw [← hpop]
      by_cases hxa : x = a
      · subst hxa; simpa [hab] using hx
      · by_cases hxb : x = b
        · subst hxb; simpa [hab] using hx
        · simpa [hxa, hxb] using hx
  | @enqueueReady st a q hi hq hn | @enqueuePending st a q hi hq hn =>
      have hpop := total_pop (Frame.completing x) hi
      simp [total_push _ _ _ hi, Frame.completing] at hpop ⊢
      rw [← hpop]
      by_cases hxa : x = a
      · subst hxa
        simp
        intro hc
        rcases hx hc with hst | hpos
        · rw [hst] at hq; simp at hq
        · exact Or.inr hpos
      · simpa [hxa] using hx
  | @enqueueLocal st a hi hq hc =>
      have hpop := total_pop (Frame.completing x) hi
      simp [Frame.completing] at hpop ⊢
      rw [← hpop]
      by_cases hxa : x = a
      · subst hxa
        simp
        intro hc
        rcases hx hc with hst | hpos
        · rw [hst] at hq; exact nomatch hq
        · exact hpos
      · simpa [hxa] using hx
  | @cancel st a hi =>
      have hpop := total_pop (Frame.completing x) hi
      by_cases hxa : x = a
      · simp [hxa]
      · simp [total_push _ _ _ hi, Frame.completing, hxa, Ne.symm hxa]
          at hpop ⊢
        rw [← hpop]; exact hx
  | @continued st a c ab hi hc | @complete st a ab hi hc =>
      have hpop := total_pop (Frame.completing x) hi
      by_cases hxa : x = a
      · simp [hxa, hc]
      · simp [total_push _ _ _ hi, Frame.completing, hxa, Ne.symm hxa]
          at hpop ⊢
        rw [← hpop]; exact hx
  | @handDown st c tmp hi =>
      have hpop := total_pop (Frame.completing x) hi
      simp [total_push _ _ _ hi, Frame.completing] at hpop ⊢
      rw [← hpop]
      by_cases hxa : x = c <;> simp [hxa] at hx ⊢ <;> exact hx
  | @signal st r rest ab hi hn =>
      have hpop := total_pop (Frame.completing x) hi
      simp [total_push _ _ _ hi, Frame.completing] at hpop ⊢
      rw [← hpop]
      by_cases hxa : x = r <;> simp [hxa] at hx ⊢ <;> exact hx
  | @release st r rest q hi hq hn | @releaseCancel st r rest q hi hq hn =>
      have hpop := total_pop (Frame.completing x) hi
      simp [total_push _ _ _ hi, Frame.completing] at hpop ⊢
      rw [← hpop]
      by_cases hxa : x = r
      · subst hxa
        simp
        intro hc
        rcases hx hc with hst | hpos
        · rw [hst] at hq; simp at hq
        · exact Or.inr hpos
      · simpa [hxa] using hx

/-- A ready task has no continuation before `completeTaskDeps`. -/
theorem Inv.continuation_none (h : Inv s) {a : ι}
    (hready : s.phase a = .ready)
    (hc : total (Frame.completing a) s.threads = 0) :
    (s.task a).continuation = none := by
  by_contra hne
  rcases h.continuation a hne with hst | hpos
  · rw [State.phase, hst] at hready; exact nomatch hready
  · omega

omit [Fintype ι] in
theorem completing_le_active (a : ι) (f : Frame ι) :
    f.completing a ≤ f.active a := by
  cases f <;> simp [Frame.completing, Frame.active]

/-- Below the top frame of an active task no frame is active for it. -/
theorem Inv.active_below (h : Inv s) {i : Nat} {f : Frame ι}
    {st : List (Frame ι)} {a : ι} (hi : s.threads[i]? = some (f :: st))
    (ha : f.active a = 1) :
    total (Frame.active a) (s.threads.set i st) = 0 := by
  have hpop := total_pop (Frame.active a) hi
  have hact := h.active a
  rw [h.ready_of_frame (onStack_top hi) ha, State.active] at hact
  simp only [ready01_eqs] at hact
  omega

theorem Inv.continuation_none_of_top (h : Inv s) {i : Nat} {f : Frame ι}
    {st : List (Frame ι)} {a : ι} (hi : s.threads[i]? = some (f :: st))
    (ha : f.active a = 1) (hf : f.completing a = 0) :
    (s.task a).continuation = none := by
  refine h.continuation_none (h.ready_of_frame (onStack_top hi) ha) ?_
  have hbelow := h.active_below hi ha
  have hle := total_mono (s.threads.set i st) (completing_le_active a)
  have hpop := total_pop (Frame.completing a) hi
  omega

theorem Inv.continuation_none_of_queued (h : Inv s) {a : ι}
    (hq : 0 < s.queued a) : (s.task a).continuation = none := by
  have hready := h.ready_of_queued hq
  refine h.continuation_none hready ?_
  have hact := h.active a
  have hle := total_mono s.threads (completing_le_active a)
  rw [hready, State.active] at hact
  simp only [ready01_eqs] at hact
  omega

theorem continued_move (h : Inv s) (hm : Move cls s i s') :
    ∀ a, (s'.task a).state = .continued →
      (s'.task a).continuation ≠ none := by
  intro x
  have hx := h.continued x
  cases hm with
  | fail _ _ | callDependsOn _ _ | callEnqueue _ _ | onComplete _ _ | pop _ _
  | gpuRunWrapper _ _ | gpuSkip _ _ | gpuRun _ _ | gpuNotDone _ | gpuRet _
  | redirect _ _ _ | dependsOnNull _ _ _ | alreadyComplete _ _
  | inlined _ _ _ | run _ | pushLocal _ _ _ | enqueueRemote _ _ _
  | addTask _ _ _ | released _ => exact hx
  | @retNone st a hi | @cancel st a hi =>
      have hready := h.ready_of_frame (a := a) (onStack_top hi)
        (by simp [Frame.active])
      rw [State.phase] at hready
      by_cases hxa : x = a
      · subst hxa
        simp
        intro hst
        rw [hst] at hready; exact nomatch hready
      · simpa [hxa] using hx
  | @retSome st a | @signal st a | @handDown st a =>
      by_cases hxa : x = a <;> simp [hxa] at hx ⊢ <;> exact hx
  | @recvInitial st a | @enqueueLocal st a | @complete st a =>
      by_cases hxa : x = a
      · simp [hxa]
      · simpa [hxa] using hx
  | @continued st a c ab hi hc =>
      by_cases hxa : x = a
      · simp [hxa, hc]
      · simpa [hxa] using hx
  | @register st a b hi hab ha hb =>
      by_cases hxa : x = a
      · subst hxa; simpa [hab] using hx
      · by_cases hxb : x = b
        · subst hxb; simpa [hab] using hx
        · simpa [hxa, hxb] using hx
  | @enqueueReady st a q hi hq hn | @enqueuePending st a q hi hq hn
  | @release st a rest q hi hq hn | @releaseCancel st a rest q hi hq hn =>
      by_cases hxa : x = a
      · rcases hq with ⟨-, rfl⟩ | ⟨-, rfl⟩ <;> simp [hxa]
      · simpa [hxa] using hx

omit [Fintype ι] in
/-- Where no frame completes `a`, `a`'s continuation does not matter. -/
theorem owner_congr (th : List (List (Frame ι))) {a x : ι}
    (cont cont' : ι → Option ι)
    (ha : total (Frame.completing a) th = 0)
    (hcont : ∀ y, y ≠ a → cont y = cont' y) :
    total (Frame.owner cont x) th = total (Frame.owner cont' x) th := by
  refine total_congr fun f hf => ?_
  cases f with
  | completeTaskDeps y ab =>
      have hle := le_total (w := Frame.completing a) hf
      have hya : y ≠ a := by
        rintro rfl
        simp only [Frame.completing, if_true] at hle
        omega
      simp only [Frame.owner, hcont y hya]
  | _ => rfl

theorem owner_move (h : Inv s) (hm : Move cls s i s') :
    ∀ a, total (Frame.owner (fun t => (s'.task t).continuation) a) s'.threads
      = owned01 (s'.sealed a) (s'.phase a) := by
  intro x
  have hx := h.owner x
  unfold State.phase at hx ⊢
  cases hm with
  | fail _ _ | gpuNotDone _ => exact hx
  | callDependsOn hi _ | pop hi _ | gpuRunWrapper hi _ | gpuRun hi _ =>
      simpa [total_push _ _ _ hi, set_self hi, Frame.owner] using hx
  | @callEnqueue st a hi hs =>
      have hnew := h.unsealed a (sealed_of_canSeal hs)
      rw [State.phase] at hnew
      have hsl := sealed_of_canSeal hs
      by_cases hxa : x = a
      · subst hxa
        rw [hsl, owned01_unsealed] at hx
        simp [total_push _ _ _ hi, set_self hi, Frame.owner, hnew, hx]
      · simpa [total_push _ _ _ hi, set_self hi, Frame.owner, hxa,
          Ne.symm hxa, Function.update_of_ne hxa] using hx
  | @onComplete st a hi hq =>
      have hpos := List.count_pos_iff.mpr hq
      have hnone := h.continuation_none_of_queued (a := a)
        (by unfold State.queued; omega)
      simpa [total_push _ _ _ hi, set_self hi, Frame.owner, hnone] using hx
  | @gpuSkip st a rest hi hq =>
      have hnone := h.continuation_none_of_queued (a := a)
        (by simp [State.queued, hq])
      simpa [total_push _ _ _ hi, set_self hi, Frame.owner, hnone] using hx
  | @recvInitial st a hi hs hc hn =>
      have hsl := sealed_of_canSeal hs
      by_cases hxa : x = a
      · subst hxa
        rw [hsl, owned01_unsealed] at hx
        simp [set_self hi, hx]
      · simpa [set_self hi, hxa, Function.update_of_ne hxa] using hx
  | @retNone st a hi =>
      have hpop := total_pop
        (Frame.owner (fun t => (s.task t).continuation) x) hi
      have hnone := h.continuation_none_of_top (a := a) hi
        (by simp [Frame.active]) rfl
      have hcont : (fun t => if t = a then none
          else (s.task t).continuation) = fun t => (s.task t).continuation :=
        funext fun t => ite_eq_right_iff.mpr fun hta => by rw [hta, hnone]
      simp only [Frame.owner] at hpop
      simp [total_push _ _ _ hi, Frame.owner, hcont, hnone]
      omega
  | @cancel st a hi =>
      have hpop := total_pop
        (Frame.owner (fun t => (s.task t).continuation) x) hi
      have hnone := h.continuation_none_of_top (a := a) hi
        (by simp [Frame.active]) rfl
      have hcont : (fun t => if t = a then none
          else (s.task t).continuation) = fun t => (s.task t).continuation :=
        funext fun t => ite_eq_right_iff.mpr fun hta => by rw [hta, hnone]
      simp only [Frame.owner] at hpop
      simp [total_push _ _ _ hi, Frame.owner, hcont, hnone]
      omega
  | @retSome st a c hi hs =>
      have hpop := total_pop
        (Frame.owner (fun t => (s.task t).continuation) x) hi
      have hready := h.ready_of_frame (a := a) (onStack_top hi)
        (by simp [Frame.active])
      have hsl := sealed_of_canSeal hs
      have hnew := h.unsealed c hsl
      rw [State.phase] at hnew hready
      have hbelow := h.active_below (a := a) hi (by simp [Frame.active])
      have hle := total_mono (s.threads.set i st)
        (completing_le_active a)
      have hcongr := owner_congr (x := x) (a := a) (s.threads.set i st)
        (fun t => if t = a then some c else (s.task t).continuation)
        (fun t => (s.task t).continuation) (by omega) (fun y hy => if_neg hy)
      simp only [Frame.owner] at hpop
      by_cases hxc : x = c
      · subst hxc
        rw [hsl, owned01_unsealed] at hx
        simp [total_push _ _ _ hi, hcongr, Frame.owner, hnew]
        omega
      · simp [total_push _ _ _ hi, hcongr, Frame.owner,
          Function.update_of_ne hxc, Ne.symm hxc]
        omega
  | @gpuRet st a hi =>
      have hpop := total_pop
        (Frame.owner (fun t => (s.task t).continuation) x) hi
      have hnone := h.continuation_none_of_top (a := a) hi
        (by simp [Frame.active]) rfl
      simp [total_push _ _ _ hi, Frame.owner, hnone] at hpop ⊢
      omega
  | redirect hi _ _ | dependsOnNull hi _ _ | alreadyComplete hi _
  | register hi _ _ _ | inlined hi _ _ | pushLocal hi _ _
  | enqueueRemote hi _ _ | addTask hi _ _ | run hi | released hi
  | handDown hi | signal hi _ =>
      have hpop := total_pop
        (Frame.owner (fun t => (s.task t).continuation) x) hi
      simp [total_push _ _ _ hi, Frame.owner] at hpop ⊢
      omega
  | @enqueueReady st a q hi hq hn =>
      have hpop := total_pop
        (Frame.owner (fun t => (s.task t).continuation) x) hi
      obtain ⟨hold, hnew⟩ := new_to_ready hq
      by_cases hxa : x = a
      · subst hxa
        obtain ⟨hsl, -⟩ := h.sealed_new_of_owner (a := x) (onStack_top hi)
          (by simp [Frame.owner])
        have hq01 : owned01 (s.sealed x) q.phase = 0 := by rw [hnew]; simp
        rw [hsl, hold, owned01_new] at hx
        simp only [Frame.owner, if_true] at hpop
        simp [total_push _ _ _ hi, Frame.owner]
        omega
      · simp [total_push _ _ _ hi, Frame.owner, hxa, Ne.symm hxa] at hpop ⊢
        omega
  | @enqueuePending st a q hi hq hn =>
      have hpop := total_pop
        (Frame.owner (fun t => (s.task t).continuation) x) hi
      obtain ⟨hold, hnew⟩ := new_to_pending hq
      by_cases hxa : x = a
      · subst hxa
        obtain ⟨hsl, -⟩ := h.sealed_new_of_owner (a := x) (onStack_top hi)
          (by simp [Frame.owner])
        have hq01 : owned01 (s.sealed x) q.phase = 0 := by rw [hnew]; simp
        rw [hsl, hold, owned01_new] at hx
        simp only [Frame.owner, if_true] at hpop
        simp
        omega
      · simp [Frame.owner, hxa, Ne.symm hxa] at hpop ⊢
        omega
  | @enqueueLocal st a hi hq hc =>
      have hpop := total_pop
        (Frame.owner (fun t => (s.task t).continuation) x) hi
      simp only [Frame.owner] at hpop
      by_cases hxa : x = a
      · subst hxa
        rw [hq] at hx
        simp only [phase_eqs, owned01_past] at hx
        simp
        omega
      · simp [hxa]
        omega
  | @continued st a c ab hi hc =>
      have hpop := total_pop
        (Frame.owner (fun t => (s.task t).continuation) x) hi
      have hready := h.ready_of_frame (a := a) (onStack_top hi)
        (by simp [Frame.active])
      rw [State.phase] at hready
      simp only [Frame.owner, hc, Option.some.injEq] at hpop
      by_cases hxa : x = a
      · subst hxa
        rw [hready, (owned01_past _).2.1] at hx
        simp only [State.setTask, State.setStack, update_state,
          update_continuation, keep_continuation, if_true,
          total_push _ _ _ hi, Frame.owner, phase_eqs, owned01_past]
        omega
      · simp [total_push _ _ _ hi, Frame.owner, hxa]
        omega
  | @complete st a ab hi hc =>
      have hpop := total_pop
        (Frame.owner (fun t => (s.task t).continuation) x) hi
      have hready := h.ready_of_frame (a := a) (onStack_top hi)
        (by simp [Frame.active])
      rw [State.phase] at hready
      simp only [Frame.owner, hc, reduceCtorEq, if_false] at hpop
      by_cases hxa : x = a
      · subst hxa
        rw [hready, (owned01_past _).2.1] at hx
        simp [total_push _ _ _ hi, Frame.owner]
        omega
      · simp [total_push _ _ _ hi, Frame.owner, hxa]
        omega
  | @release st r rest q hi hq hn | @releaseCancel st r rest q hi hq hn =>
      have hpop := total_pop
        (Frame.owner (fun t => (s.task t).continuation) x) hi
      obtain ⟨hold, hnew⟩ := pending_to_ready hq
      simp only [Frame.owner] at hpop
      by_cases hxa : x = r
      · subst hxa
        have hq01 : owned01 (s.sealed x) q.phase = 0 := by rw [hnew]; simp
        rw [hold, (owned01_past _).1] at hx
        simp [total_push _ _ _ hi, Frame.owner]
        omega
      · simp [total_push _ _ _ hi, Frame.owner, hxa]
        omega

/-- **STEP**: a move keeps the invariant. -/
theorem Inv.move (h : Inv s) (hm : Move cls s i s') : Inv s' where
  active := active_move h hm
  started := started_move h hm
  dispatched := dispatched_move h hm
  tokens := tokens_move h hm
  account := account_move h hm
  pending := fun a => (counter_move h hm a).1
  reached := fun a => (counter_move h hm a).2
  done := done_move h hm
  unsealed := unsealed_move h hm
  registering := registering_move h hm
  continuation := continuation_move h hm
  continued := continued_move h hm
  owner := owner_move h hm

end Moves

section Runs

variable [Fintype ι] {s : State ι}

omit [DecidableEq ι] [Fintype ι] in
theorem total_idle {w : Frame ι → Nat} {th : List (List (Frame ι))}
    (h : ∀ st ∈ th, st = []) : total w th = 0 := by
  refine total_eq_zero fun f ⟨st, hst, hf⟩ => ?_
  rw [h st hst] at hf
  exact nomatch hf

omit [DecidableEq ι] [Fintype ι] in
theorem phase_initialState (c : TaskClass) : c.initialState.phase = .new := by
  cases c <;> rfl

/-- Tasks fresh from their constructors satisfy the invariant. -/
theorem Inv.initial (h : Initial cls s) : Inv s := by
  obtain ⟨htask, hidle, hq, hr, hg, hsl, hlog, -⟩ := h
  have hphase : ∀ a, s.phase a = .new := fun a => by
    rw [State.phase, htask a]; exact phase_initialState _
  have hlist : ∀ a, listed s.task a = 0 := fun a =>
    Finset.sum_eq_zero fun c _ => by rw [htask c]; rfl
  constructor
  case active =>
      intro a
      rw [hphase a, State.active, State.queued, hq, hr, hg, total_idle hidle]
      rfl
  case started =>
      intro a
      rw [hphase a, State.started, State.queued, hq, hr, hg, hlog,
        total_idle hidle]
      rfl
  case dispatched =>
      intro a
      rw [hphase a, State.dispatched, hlog, total_idle hidle]
      rfl
  case tokens =>
      intro a
      rw [State.tokens, hlist a, total_idle hidle, htask a]
      rfl
  case account => intro a; rw [hlog, htask a]; rfl
  case pending => intro a ha; rw [hphase a] at ha; exact nomatch ha
  case reached => intro a ha; rw [hphase a] at ha; exact nomatch ha
  case done => intro a ha; rw [hphase a] at ha; exact nomatch ha
  case unsealed => exact fun a _ => hphase a
  case registering => exact fun a _ => total_idle hidle
  case continuation =>
      intro a ha
      rw [htask a] at ha
      exact absurd rfl ha
  case continued =>
      intro a ha
      have hn := hphase a
      rw [State.phase, ha] at hn
      exact nomatch hn
  case owner => intro a; rw [hsl a, total_idle hidle]; rfl

/-- **RUN**: the invariant holds in every reachable state. -/
theorem inv_of_reachable (h : Reachable (system cls) s) : Inv s :=
  Reachable.invariant Inv h (fun _ hs => Inv.initial hs)
    (fun _ _ _ hs hn => hs.move (move_of_step hn))

end Runs

end PbDynamicTask
