import PetaBricks.DynamicTaskProofs

/-! # DynamicTask places — which states a task has where

    The (class, state) pairs that occur: a `RemoteTask` is never `S_PENDING`,
    only a `RemoteTask` goes from a remote state to `S_READY`, and GPU tasks stay
    in the remote states until they are complete.  From these follow the state
    of everything that waits in a queue or stands before `runWrapper`, and where
    each class of task can be dispatched to. -/

namespace PbDynamicTask

open PbTransition PbCallStack

variable {ι : Type} [DecidableEq ι] {cls : ι → TaskClass}

/-- The states a task of a class can have. -/
def TaskClass.states : TaskClass → List TaskState
  | .dynamicTask | .nullDynamicTask =>
      [.new, .pending, .ready, .complete, .continued]
  | .remoteTask =>
      [.remoteNew, .remotePending, .remoteReady, .ready, .complete, .continued]
  | .gpuDynamicTask =>
      [.remoteNew, .remotePending, .remoteReady, .complete, .continued]

/-- Where a task of a class can be dispatched to. -/
def TaskClass.targets : TaskClass → List Target
  | .dynamicTask => [.workerQueue, .cancelled]
  | .nullDynamicTask => [.inlined, .cancelled]
  | .remoteTask => [.workerQueue, .remoteHost, .cancelled]
  | .gpuDynamicTask => [.gpuManager, .cancelled]

/-- What holds of tasks by where they are. -/
structure Places (cls : ι → TaskClass) (s : State ι) : Prop where
  states : ∀ a, (s.task a).state ∈ (cls a).states
  queue : ∀ a ∈ s.queue, (s.task a).state = .ready
  gpuQueue : ∀ a ∈ s.gpuQueue,
    (s.task a).state = .remoteReady ∧ cls a = .gpuDynamicTask
  wrapper : ∀ a ab, OnStack (.runWrapper a ab) s.threads →
    (s.task a).state = .ready ∨
      (s.task a).state = .remoteReady ∧
        (cls a = .gpuDynamicTask ∨ .dispatched a .cancelled ∈ s.log)
  targets : ∀ a t, .dispatched a t ∈ s.log → t ∈ (cls a).targets

theorem states_ready {c : TaskClass} (h : .ready ∈ c.states) :
    c.type = .cpu := by
  cases c <;> first | rfl | exact absurd h (by decide)

theorem states_initial (c : TaskClass) : c.initialState ∈ c.states := by
  cases c <;> decide

theorem targets_cancelled (c : TaskClass) : .cancelled ∈ c.targets := by
  cases c <;> decide

theorem states_enqueue {c : TaskClass} {p q : TaskState}
    (h : p = .new ∧ q = .ready ∨ p = .remoteNew ∧ q = .remoteReady)
    (hp : p ∈ c.states) : q ∈ c.states := by
  rcases h with ⟨rfl, rfl⟩ | ⟨rfl, rfl⟩ <;> revert hp <;> cases c <;> decide

theorem states_wait {c : TaskClass} {p q : TaskState}
    (h : p = .new ∧ q = .pending ∨ p = .remoteNew ∧ q = .remotePending)
    (hp : p ∈ c.states) : q ∈ c.states := by
  rcases h with ⟨rfl, rfl⟩ | ⟨rfl, rfl⟩ <;> revert hp <;> cases c <;> decide

theorem states_release {c : TaskClass} {p q : TaskState}
    (h : p = .pending ∧ q = .ready ∨ p = .remotePending ∧ q = .remoteReady)
    (hp : p ∈ c.states) : q ∈ c.states := by
  rcases h with ⟨rfl, rfl⟩ | ⟨rfl, rfl⟩ <;> revert hp <;> cases c <;> decide

theorem states_done (c : TaskClass) :
    .complete ∈ c.states ∧ .continued ∈ c.states := by
  cases c <;> decide

attribute [local simp] State.setTask State.setStack State.note State.seal
  State.fail update_state update_numPredecessors update_dependents
  update_continuation keep_state keep_numPredecessors keep_dependents
  keep_continuation

section Moves

variable [Fintype ι] {s s' : State ι} {i : Nat}

omit [Fintype ι] in
theorem states_move (h : Places cls s) (hm : Move cls s i s') :
    ∀ a, (s'.task a).state ∈ (cls a).states := by
  intro x
  have hx := h.states x
  cases hm with
  | fail _ _ | callDependsOn _ _ | callEnqueue _ _ | onComplete _ _ | pop _ _
  | gpuRunWrapper _ _ | gpuSkip _ _ | gpuRun _ _ | gpuNotDone _ | gpuRet _
  | redirect _ _ _ | dependsOnNull _ _ _ | alreadyComplete _ _
  | inlined _ _ _ | run _ | pushLocal _ _ _ | enqueueRemote _ _ _
  | addTask _ _ _ | released _ => exact hx
  | retNone _ | retSome _ _ | cancel _ | register _ _ _ _ | handDown _
  | signal _ _ => simpa using hx
  | @recvInitial st a hi hs hc hn =>
      by_cases hxa : x = a
      · subst hxa; simp [hc, TaskClass.states]
      · simpa [hxa] using hx
  | @enqueueLocal st a hi hq hc =>
      by_cases hxa : x = a
      · subst hxa; simp [hc, TaskClass.states]
      · simpa [hxa] using hx
  | @continued st a c ab hi hc =>
      by_cases hxa : x = a
      · simpa [hxa] using (states_done (cls a)).2
      · simpa [hxa] using hx
  | @complete st a ab hi hc =>
      by_cases hxa : x = a
      · simpa [hxa] using (states_done (cls a)).1
      · simpa [hxa] using hx
  | @enqueueReady st a q hi hq hn =>
      by_cases hxa : x = a
      · subst hxa; simpa using states_enqueue hq hx
      · simpa [hxa] using hx
  | @enqueuePending st a q hi hq hn =>
      by_cases hxa : x = a
      · subst hxa; simpa using states_wait hq hx
      · simpa [hxa] using hx
  | @release st r rest q hi hq hn | @releaseCancel st r rest q hi hq hn =>
      by_cases hxa : x = r
      · subst hxa; simpa using states_release hq hx
      · simpa [hxa] using hx

omit [Fintype ι] in
/-- Of the ready tasks only a `RemoteTask` changes its state and stays
    ready. -/
theorem ready_stable (hm : Move cls s i s') {x : ι}
    (hx : s.phase x = .ready) (hx' : s'.phase x = .ready) :
    (s'.task x).state = (s.task x).state ∨
      (s'.task x).state = .ready ∧ cls x = .remoteTask := by
  cases hm with
  | fail _ _ | callDependsOn _ _ | callEnqueue _ _ | onComplete _ _ | pop _ _
  | gpuRunWrapper _ _ | gpuSkip _ _ | gpuRun _ _ | gpuNotDone _ | gpuRet _
  | redirect _ _ _ | dependsOnNull _ _ _ | alreadyComplete _ _
  | inlined _ _ _ | run _ | pushLocal _ _ _ | enqueueRemote _ _ _
  | addTask _ _ _ | released _ => exact Or.inl rfl
  | retNone _ | retSome _ _ | cancel _ | register _ _ _ _ | handDown _
  | signal _ _ => simp
  | @recvInitial st a hi hs hc hn | @enqueueLocal st a hi hq hc =>
      by_cases hxa : x = a
      · subst hxa; simp [hc]
      · simp [hxa]
  | @continued st a c ab hi hc | @complete st a ab hi hc =>
      by_cases hxa : x = a
      · subst hxa; simp [State.phase] at hx'
      · simp [hxa]
  | @enqueueReady st a q hi hq hn =>
      have hxa : x ≠ a := by
        rintro rfl
        rw [State.phase, (new_to_ready hq).1] at hx; cases hx
      simp [hxa]
  | @enqueuePending st a q hi hq hn =>
      have hxa : x ≠ a := by
        rintro rfl
        rw [State.phase, (new_to_pending hq).1] at hx; cases hx
      simp [hxa]
  | @release st r rest q hi hq hn | @releaseCancel st r rest q hi hq hn =>
      have hxa : x ≠ r := by
        rintro rfl
        rw [State.phase, (pending_to_ready hq).1] at hx; cases hx
      simp [hxa]

theorem queue_move (h' : Inv s') (hp : Places cls s)
    (hm : Move cls s i s') : ∀ a ∈ s'.queue, (s'.task a).state = .ready := by
  intro x hx
  have hready' := h'.ready_of_queued (a := x) (by
    have := List.count_pos_iff.mpr hx
    unfold State.queued; omega)
  have hold : x ∈ s.queue → (s'.task x).state = .ready := by
    intro hxs
    have hst := hp.queue x hxs
    rcases ready_stable hm (by rw [State.phase, hst]; rfl) hready' with h1 | h1
    · exact h1.trans hst
    · exact h1.1
  cases hm with
  | @recvInitial st a hi hs hc hn | @enqueueLocal st a hi hq hc =>
      rcases List.mem_cons.mp hx with rfl | hxs
      · simp
      · exact hold hxs
  | @pushLocal st a hi hq hc =>
      rcases List.mem_cons.mp hx with rfl | hxs
      · exact hq
      · exact hold hxs
  | @pop st a ab hi hq => exact hold (List.mem_of_mem_erase hx)
  | _ => exact hold hx

theorem gpuQueue_move (h' : Inv s') (hp : Places cls s)
    (hm : Move cls s i s') : ∀ a ∈ s'.gpuQueue,
      (s'.task a).state = .remoteReady ∧ cls a = .gpuDynamicTask := by
  intro x hx
  have hready' := h'.ready_of_queued (a := x) (by
    have := List.count_pos_iff.mpr hx
    unfold State.queued; omega)
  have hold : x ∈ s.gpuQueue →
      (s'.task x).state = .remoteReady ∧ cls x = .gpuDynamicTask := by
    intro hxs
    obtain ⟨hst, hc⟩ := hp.gpuQueue x hxs
    rcases ready_stable hm (by rw [State.phase, hst]; rfl) hready' with h1 | h1
    · exact ⟨h1.trans hst, hc⟩
    · cases hc.symm.trans h1.2
  cases hm with
  | @addTask st a hi hq hc =>
      rcases List.mem_append.mp hx with hxs | hxa
      · exact hold hxs
      · cases List.mem_singleton.mp hxa; exact ⟨hq, hc⟩
  | gpuRunWrapper hi hq | gpuSkip hi hq | gpuRun hi hq =>
      exact hold (by rw [hq]; exact List.mem_cons_of_mem _ hx)
  | gpuNotDone hq =>
      refine hold ?_
      rw [hq]
      rcases List.mem_append.mp hx with hxs | hxa
      · exact List.mem_cons_of_mem _ hxs
      · cases List.mem_singleton.mp hxa; exact List.mem_cons_self
  | _ => exact hold hx

theorem wrapper_move (h : Inv s) (h' : Inv s') (hp : Places cls s)
    (hm : Move cls s i s') : ∀ a ab, OnStack (.runWrapper a ab) s'.threads →
      (s'.task a).state = .ready ∨ (s'.task a).state = .remoteReady ∧
        (cls a = .gpuDynamicTask ∨ .dispatched a .cancelled ∈ s'.log) := by
  intro x xb hx
  have hready' := h'.ready_of_frame hx (a := x) (by simp [Frame.active])
  have hold : OnStack (.runWrapper x xb) s.threads →
      (s'.task x).state = .ready ∨ (s'.task x).state = .remoteReady ∧
        (cls x = .gpuDynamicTask ∨ .dispatched x .cancelled ∈ s'.log) := by
    intro hxs
    have hready := h.ready_of_frame hxs (a := x) (by simp [Frame.active])
    rcases ready_stable hm hready hready' with h1 | h1
    · rw [h1]
      exact (hp.wrapper x xb hxs).imp_right
        (And.imp_right (Or.imp_right (log_mono hm)))
    · exact Or.inl h1.1
  cases hm with
  | fail _ _ | gpuNotDone _ => exact hold hx
  | callDependsOn hi _ | callEnqueue hi _ | recvInitial hi _ _ _
  | onComplete hi _ | gpuSkip hi _ | gpuRun hi _ =>
      exact hold (by simpa [onStack_push hi, set_self hi] using hx)
  | @pop st a ab hi hq =>
      rcases (onStack_push hi).mp hx with heq | hxs
      · cases heq; exact Or.inl (hp.queue x hq)
      · rw [set_self hi] at hxs; exact hold hxs
  | @gpuRunWrapper st a rest hi hq =>
      rcases (onStack_push hi).mp hx with heq | hxs
      · cases heq
        obtain ⟨hst, hc⟩ := hp.gpuQueue x (by rw [hq]; exact List.mem_cons_self)
        exact Or.inr ⟨hst, Or.inl hc⟩
      · rw [set_self hi] at hxs; exact hold hxs
  | @inlined st a hi hq hc =>
      rcases (onStack_push hi).mp hx with heq | hxs
      · cases heq; exact Or.inl hq
      · exact hold ((onStack_pop hi).mpr (Or.inr hxs))
  | @releaseCancel st r rest q hi hq hn =>
      by_cases hxr : x = r ∧ xb = true
      · obtain ⟨rfl, rfl⟩ := hxr
        rcases hq with ⟨-, rfl⟩ | ⟨-, rfl⟩
        · exact Or.inl (by simp)
        · exact Or.inr ⟨by simp, Or.inr List.mem_cons_self⟩
      · refine hold ?_
        simpa [onStack_pop hi, onStack_push hi, hxr] using hx
  | retNone hi | retSome hi _ | gpuRet hi | redirect hi _ _
  | dependsOnNull hi _ _ | alreadyComplete hi _ | register hi _ _ _
  | enqueueReady hi _ _ | enqueuePending hi _ _ | pushLocal hi _ _
  | enqueueLocal hi _ _ | enqueueRemote hi _ _ | addTask hi _ _ | run hi
  | cancel hi | continued hi _ | complete hi _ | handDown hi | released hi
  | signal hi _ | release hi _ _ =>
      refine hold ((onStack_pop hi).mpr (Or.inr ?_))
      simpa [onStack_push hi] using hx

omit [Fintype ι] in
theorem targets_move (hp : Places cls s) (hm : Move cls s i s') :
    ∀ a t, .dispatched a t ∈ s'.log → t ∈ (cls a).targets := by
  intro x t hx
  cases hm with
  | @recvInitial st a hi hs hc hn =>
      rcases List.mem_cons.mp hx with heq | hold
      · cases heq; rw [hc]; decide
      · exact hp.targets x t hold
  | @inlined st a hi hq hc =>
      rcases List.mem_cons.mp hx with heq | hold
      · cases heq; rw [hc]; decide
      · exact hp.targets x t hold
  | @pushLocal st a hi hq hc =>
      rcases List.mem_cons.mp hx with heq | hold
      · cases heq
        have hst := hp.states x
        rw [hq] at hst
        revert hst hc
        cases cls x <;> decide
      · exact hp.targets x t hold
  | @enqueueLocal st a hi hq hc | @enqueueRemote st a hi hq hc
  | @addTask st a hi hq hc =>
      rcases List.mem_cons.mp hx with heq | hold
      · cases heq; rw [hc]; decide
      · exact hp.targets x t hold
  | @releaseCancel st r rest q hi hq hn =>
      rcases List.mem_cons.mp hx with heq | hold
      · cases heq; exact targets_cancelled (cls x)
      · exact hp.targets x t (by simpa using hold)
  | _ => exact hp.targets x t (by simpa using hx)

/-- **STEP**: a move keeps every task in a state its place allows. -/
theorem Places.move (h : Inv s) (hp : Places cls s) (hm : Move cls s i s') :
    Places cls s' where
  states := states_move hp hm
  queue := queue_move (h.move hm) hp hm
  gpuQueue := gpuQueue_move (h.move hm) hp hm
  wrapper := wrapper_move h (h.move hm) hp hm
  targets := targets_move hp hm

omit [Fintype ι] [DecidableEq ι] in
theorem Places.initial (h : Initial cls s) : Places cls s := by
  obtain ⟨htask, hidle, hq, hr, hg, -, hlog, -⟩ := h
  constructor
  case states =>
      intro a
      rw [htask a]
      exact states_initial (cls a)
  case queue => intro a ha; rw [hq] at ha; exact nomatch ha
  case gpuQueue => intro a ha; rw [hg] at ha; exact nomatch ha
  case wrapper =>
      rintro a ab ⟨st, hst, hf⟩
      rw [hidle st hst] at hf; exact nomatch hf
  case targets => intro a t ha; rw [hlog] at ha; exact nomatch ha

/-- **RUN**: in every reachable state. -/
theorem places_of_reachable (h : Reachable (system cls) s) :
    Places cls s :=
  (Reachable.invariant (fun s => Inv s ∧ Places cls s) h
    (fun _ hs => ⟨Inv.initial hs, Places.initial hs⟩)
    (fun _ _ _ hs hn =>
      have hm := move_of_step hn
      ⟨hs.1.move hm, hs.2.move hs.1 hm⟩)).2

end Moves

end PbDynamicTask
