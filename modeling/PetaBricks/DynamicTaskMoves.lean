import PetaBricks.DynamicTaskModel

/-! # DynamicTask moves — what one step can do

    `Move` lists every change a step of the task system can make, with what
    the source has checked by then; `move_of_step` is the one place where the
    step function is unfolded.  Every invariant is a case analysis over
    `Move`. -/

namespace PbDynamicTask

open PbTransition PbCallStack

/-- The four phases of a task, local or remote. -/
inductive Phase where
  | new | pending | ready | done
  deriving DecidableEq, Repr

/-- The phase a state belongs to. -/
def TaskState.phase : TaskState → Phase
  | .new | .remoteNew => .new
  | .pending | .remotePending => .pending
  | .ready | .remoteReady => .ready
  | .complete | .continued => .done

theorem isNew_iff {q : TaskState} : q.isNew = true ↔ q.phase = .new := by
  cases q <;> decide

variable {ι : Type} [DecidableEq ι] {cls : ι → TaskClass}

/-- What a step of thread `i` can do to the task system. -/
inductive Move (cls : ι → TaskClass) (s : State ι) (i : Nat) :
    State ι → Prop where
  | fail (v : Assertion ι)
      (hv : ∀ a ab, v = .runWrapperState a ab →
        OnStack (.runWrapper a ab) s.threads ∧
          runnable (cls a) (s.task a) = false) :
      Move cls s i (s.fail v)
  | callDependsOn {st : List (Frame ι)} {a b : ι}
      (hi : s.threads[i]? = some st) (hs : s.sealed a = false) :
      Move cls s i ((s.setStack i (.dependsOn a b :: st)).note (.dependsOn a b))
  | callEnqueue {st : List (Frame ι)} {a : ι}
      (hi : s.threads[i]? = some st) (hs : s.canSeal a = true) :
      Move cls s i ((s.seal a).setStack i (.enqueue a :: st))
  | recvInitial {st : List (Frame ι)} {a : ι}
      (hi : s.threads[i]? = some st) (hs : s.canSeal a = true)
      (hc : cls a = .remoteTask) (hn : (s.task a).numPredecessors = 0) :
      Move cls s i { ((((s.seal a).setTask a
          { s.task a with state := .ready }).setStack i st).note
            (.dispatched a .workerQueue)) with queue := a :: s.queue }
  | onComplete {st : List (Frame ι)} {a : ι}
      (hi : s.threads[i]? = some st) (hq : a ∈ s.remoteOut) :
      Move cls s i { (s.setStack i (.completeTaskDeps a false :: st)).note
        (.ranRemotely a) with remoteOut := s.remoteOut.erase a }
  | pop {st : List (Frame ι)} {a : ι} {isAborting : Bool}
      (hi : s.threads[i]? = some st) (hq : a ∈ s.queue) :
      Move cls s i { s.setStack i (.runWrapper a isAborting :: st) with
        queue := s.queue.erase a }
  | gpuRunWrapper {st : List (Frame ι)} {a : ι} {rest : List ι}
      (hi : s.threads[i]? = some st) (hq : s.gpuQueue = a :: rest) :
      Move cls s i { s.setStack i (.runWrapper a false :: st) with
        gpuQueue := rest }
  | gpuSkip {st : List (Frame ι)} {a : ι} {rest : List ι}
      (hi : s.threads[i]? = some st) (hq : s.gpuQueue = a :: rest) :
      Move cls s i { (s.setStack i (.completeTaskDeps a false :: st)).note
        (.skipped a) with gpuQueue := rest }
  | gpuRun {st : List (Frame ι)} {a : ι} {rest : List ι}
      (hi : s.threads[i]? = some st) (hq : s.gpuQueue = a :: rest) :
      Move cls s i { (s.setStack i (.gpuRun a :: st)).note (.ran a) with
        gpuQueue := rest }
  | gpuNotDone {a : ι} {rest : List ι} (hq : s.gpuQueue = a :: rest) :
      Move cls s i { s with gpuQueue := rest ++ [a] }
  | retNone {st : List (Frame ι)} {a : ι}
      (hi : s.threads[i]? = some (.run a :: st)) :
      Move cls s i ((s.setTask a { s.task a with
        continuation := none }).setStack i (.completeTaskDeps a false :: st))
  | retSome {st : List (Frame ι)} {a c : ι}
      (hi : s.threads[i]? = some (.run a :: st)) (hs : s.canSeal c = true) :
      Move cls s i (((s.setTask a { s.task a with
        continuation := some c }).seal c).setStack i
          (.completeTaskDeps a false :: st))
  | gpuRet {st : List (Frame ι)} {a : ι}
      (hi : s.threads[i]? = some (.gpuRun a :: st)) :
      Move cls s i (s.setStack i (.completeTaskDeps a false :: st))
  | redirect {st : List (Frame ι)} {a b c : ι}
      (hi : s.threads[i]? = some (.dependsOn a b :: st))
      (hb : (s.task b).state = .continued)
      (hc : (s.task b).continuation = some c) :
      Move cls s i (s.setStack i (.dependsOn a c :: st))
  | dependsOnNull {st : List (Frame ι)} {a b : ι}
      (hi : s.threads[i]? = some (.dependsOn a b :: st))
      (hb : (s.task b).state = .continued)
      (hc : (s.task b).continuation = none) :
      Move cls s i (s.setStack i st)
  | alreadyComplete {st : List (Frame ι)} {a b : ι}
      (hi : s.threads[i]? = some (.dependsOn a b :: st))
      (hb : (s.task b).state = .complete) :
      Move cls s i (s.setStack i st)
  | register {st : List (Frame ι)} {a b : ι}
      (hi : s.threads[i]? = some (.dependsOn a b :: st))
      (hab : b ≠ a) (ha : (s.task a).state.phase = .new)
      (hb : (s.task b).state.phase ≠ .done) :
      Move cls s i ((((s.setTask b { s.task b with
          dependents := (s.task b).dependents ++ [a] }).setTask a
        { s.task a with
          numPredecessors := (s.task a).numPredecessors + 1 }).setStack
            i st).note (.registered a))
  | enqueueReady {st : List (Frame ι)} {a : ι} {q : TaskState}
      (hi : s.threads[i]? = some (.enqueue a :: st))
      (hq : (s.task a).state = .new ∧ q = .ready ∨
        (s.task a).state = .remoteNew ∧ q = .remoteReady)
      (hn : (s.task a).numPredecessors = 0) :
      Move cls s i ((s.setTask a { s.task a with state := q }).setStack i
        (.dispatch a :: st))
  | enqueuePending {st : List (Frame ι)} {a : ι} {q : TaskState}
      (hi : s.threads[i]? = some (.enqueue a :: st))
      (hq : (s.task a).state = .new ∧ q = .pending ∨
        (s.task a).state = .remoteNew ∧ q = .remotePending)
      (hn : (s.task a).numPredecessors ≠ 0) :
      Move cls s i ((s.setTask a { s.task a with state := q }).setStack i st)
  | inlined {st : List (Frame ι)} {a : ι}
      (hi : s.threads[i]? = some (.dispatch a :: st))
      (hq : (s.task a).state = .ready) (hc : cls a = .nullDynamicTask) :
      Move cls s i ((s.setStack i (.runWrapper a false :: st)).note
        (.dispatched a .inlined))
  | pushLocal {st : List (Frame ι)} {a : ι}
      (hi : s.threads[i]? = some (.dispatch a :: st))
      (hq : (s.task a).state = .ready) (hc : cls a ≠ .nullDynamicTask) :
      Move cls s i { (s.setStack i st).note (.dispatched a .workerQueue) with
        queue := a :: s.queue }
  | enqueueLocal {st : List (Frame ι)} {a : ι}
      (hi : s.threads[i]? = some (.dispatch a :: st))
      (hq : (s.task a).state = .remoteReady) (hc : cls a = .remoteTask) :
      Move cls s i { (((s.setTask a { s.task a with state := .ready }).setStack i
        st).note (.dispatched a .workerQueue)) with queue := a :: s.queue }
  | enqueueRemote {st : List (Frame ι)} {a : ι}
      (hi : s.threads[i]? = some (.dispatch a :: st))
      (hq : (s.task a).state = .remoteReady) (hc : cls a = .remoteTask) :
      Move cls s i { (s.setStack i st).note (.dispatched a .remoteHost) with
        remoteOut := a :: s.remoteOut }
  | addTask {st : List (Frame ι)} {a : ι}
      (hi : s.threads[i]? = some (.dispatch a :: st))
      (hq : (s.task a).state = .remoteReady) (hc : cls a = .gpuDynamicTask) :
      Move cls s i { (s.setStack i st).note (.dispatched a .gpuManager) with
        gpuQueue := s.gpuQueue ++ [a] }
  | run {st : List (Frame ι)} {a : ι}
      (hi : s.threads[i]? = some (.runWrapper a false :: st)) :
      Move cls s i ((s.setStack i (.run a :: st)).note (.ran a))
  | cancel {st : List (Frame ι)} {a : ι}
      (hi : s.threads[i]? = some (.runWrapper a true :: st)) :
      Move cls s i (((s.setTask a { s.task a with
        continuation := none }).setStack i
          (.completeTaskDeps a true :: st)).note (.cancelled a))
  | continued {st : List (Frame ι)} {a c : ι} {isAborting : Bool}
      (hi : s.threads[i]? = some (.completeTaskDeps a isAborting :: st))
      (hc : (s.task a).continuation = some c) :
      Move cls s i ((s.setTask a { s.task a with
        dependents := [], state := .continued }).setStack
          i (.handDown c (s.task a).dependents :: st))
  | complete {st : List (Frame ι)} {a : ι} {isAborting : Bool}
      (hi : s.threads[i]? = some (.completeTaskDeps a isAborting :: st))
      (hc : (s.task a).continuation = none) :
      Move cls s i ((s.setTask a { s.task a with
        dependents := [], state := .complete }).setStack
          i (.decrementAll (s.task a).dependents isAborting :: st))
  | handDown {st : List (Frame ι)} {c : ι} {tmp : List ι}
      (hi : s.threads[i]? = some (.handDown c tmp :: st)) :
      Move cls s i ((s.setTask c { s.task c with
        dependents := (s.task c).dependents ++ tmp }).setStack i
          (.enqueue c :: st))
  | released {st : List (Frame ι)} {isAborting : Bool}
      (hi : s.threads[i]? = some (.decrementAll [] isAborting :: st)) :
      Move cls s i (s.setStack i st)
  | signal {st : List (Frame ι)} {r : ι} {rest : List ι}
      {isAborting : Bool}
      (hi : s.threads[i]? = some (.decrementAll (r :: rest) isAborting :: st))
      (hn : (s.task r).state.phase = .pending →
        (s.task r).numPredecessors ≠ 1) :
      Move cls s i (((s.setTask r { s.task r with
        numPredecessors := (s.task r).numPredecessors - 1 }).setStack i
          (.decrementAll rest isAborting :: st)).note (.signalled r))
  | release {st : List (Frame ι)} {r : ι} {rest : List ι}
      {q : TaskState}
      (hi : s.threads[i]? = some (.decrementAll (r :: rest) false :: st))
      (hq : (s.task r).state = .pending ∧ q = .ready ∨
        (s.task r).state = .remotePending ∧ q = .remoteReady)
      (hn : (s.task r).numPredecessors = 1) :
      Move cls s i (((s.setTask r { s.task r with
        numPredecessors := (s.task r).numPredecessors - 1,
        state := q }).note (.signalled r)).setStack i
          (.dispatch r :: .decrementAll rest false :: st))
  | releaseCancel {st : List (Frame ι)} {r : ι} {rest : List ι}
      {q : TaskState}
      (hi : s.threads[i]? = some (.decrementAll (r :: rest) true :: st))
      (hq : (s.task r).state = .pending ∧ q = .ready ∨
        (s.task r).state = .remotePending ∧ q = .remoteReady)
      (hn : (s.task r).numPredecessors = 1) :
      Move cls s i ((((s.setTask r { s.task r with
        numPredecessors := (s.task r).numPredecessors - 1,
        state := q }).note (.signalled r)).setStack i
          (.runWrapper r true :: .decrementAll rest true :: st)).note
            (.dispatched r .cancelled))

/-! ## Every step is a move -/

theorem move_dependsOn {s : State ι} {i : Nat} {a b : ι}
    {st : List (Frame ι)}
    (hi : s.threads[i]? = some (.dependsOn a b :: st)) :
    Move cls s i (stepDependsOn s i a b st) := by
  unfold stepDependsOn
  by_cases hab : b = a
  · rw [if_pos hab]; exact Move.fail _ (fun _ _ h => nomatch h)
  rw [if_neg hab]
  by_cases hnew : (s.task a).state.isNew = false
  · rw [if_pos hnew]; exact Move.fail _ (fun _ _ h => nomatch h)
  rw [if_neg hnew]
  have ha : (s.task a).state.phase = .new :=
    isNew_iff.mp (by simpa using hnew)
  cases hb : (s.task b).state with
  | continued =>
      cases hc : (s.task b).continuation with
      | some c => exact Move.redirect hi hb hc
      | none => exact Move.dependsOnNull hi hb hc
  | complete => exact Move.alreadyComplete hi hb
  | _ => exact Move.register hi hab ha (by rw [hb]; decide)

theorem move_enqueue {s : State ι} {i : Nat} {a : ι} {st : List (Frame ι)}
    (hi : s.threads[i]? = some (.enqueue a :: st)) :
    Move cls s i (stepEnqueue s i a st) := by
  unfold stepEnqueue
  by_cases hn : (s.task a).numPredecessors = 0
  · cases hq : (s.task a).state with
    | new =>
        simp only [enqueuedState, if_pos hn]
        exact Move.enqueueReady hi (Or.inl ⟨hq, rfl⟩) hn
    | remoteNew =>
        simp only [enqueuedState, if_pos hn]
        exact Move.enqueueReady hi (Or.inr ⟨hq, rfl⟩) hn
    | _ => exact Move.fail _ (fun _ _ h => nomatch h)
  · cases hq : (s.task a).state with
    | new =>
        simp only [enqueuedState, if_neg hn]
        exact Move.enqueuePending hi (Or.inl ⟨hq, rfl⟩) hn
    | remoteNew =>
        simp only [enqueuedState, if_neg hn]
        exact Move.enqueuePending hi (Or.inr ⟨hq, rfl⟩) hn
    | _ => exact Move.fail _ (fun _ _ h => nomatch h)

omit [DecidableEq ι] in
private theorem not_null_of {a : ι} (h : ¬(cls a).isNullTask = true) :
    cls a ≠ .nullDynamicTask := by
  intro hc; rw [hc] at h; exact h rfl

theorem move_dispatch {s : State ι} {i : Nat} {a : ι} {toSelf : Bool}
    {st : List (Frame ι)} (hi : s.threads[i]? = some (.dispatch a :: st)) :
    Move cls s i (stepDispatch cls s i a toSelf st) := by
  unfold stepDispatch
  cases hq : (s.task a).state with
  | ready =>
      simp only [inlineOrEnqueueTask]
      by_cases hnull : (cls a).isNullTask = true
      · rw [if_pos hnull]
        refine Move.inlined hi hq ?_
        cases hc : cls a with
        | nullDynamicTask => rfl
        | _ => rw [hc] at hnull; exact nomatch hnull
      · rw [if_neg hnull]
        exact Move.pushLocal hi hq (not_null_of hnull)
  | remoteReady =>
      simp only [remoteScheduleTask]
      cases hc : cls a with
      | remoteTask =>
          cases toSelf with
          | true =>
              simp only [if_true, inlineOrEnqueueTask]
              rw [if_neg (by rw [hc]; exact Bool.noConfusion)]
              exact Move.enqueueLocal hi hq hc
          | false => exact Move.enqueueRemote hi hq hc
      | gpuDynamicTask => exact Move.addTask hi hq hc
      | _ => exact Move.fail _ (fun _ _ h => nomatch h)
  | _ => exact Move.fail _ (fun _ _ h => nomatch h)

theorem move_runWrapper {s : State ι} {i : Nat} {a : ι} {isAborting : Bool}
    {st : List (Frame ι)}
    (hi : s.threads[i]? = some (.runWrapper a isAborting :: st)) :
    Move cls s i (stepRunWrapper cls s i a isAborting st) := by
  unfold stepRunWrapper
  by_cases hr : runnable (cls a) (s.task a) = true
  · rw [if_pos hr]
    cases isAborting with
    | true => exact Move.cancel hi
    | false => exact Move.run hi
  · rw [if_neg hr]
    refine Move.fail _ fun b ab hv => ?_
    cases hv
    exact ⟨(onStack_pop hi).mpr (Or.inl rfl), Bool.eq_false_iff.mpr hr⟩

theorem move_completeTaskDeps {s : State ι} {i : Nat} {a : ι}
    {isAborting : Bool} {st : List (Frame ι)}
    (hi : s.threads[i]? = some (.completeTaskDeps a isAborting :: st)) :
    Move cls s i (stepCompleteTaskDeps s i a isAborting st) := by
  unfold stepCompleteTaskDeps
  cases hc : (s.task a).continuation with
  | some c => exact Move.continued hi hc
  | none => exact Move.complete hi hc

private theorem releasedState_none {q : TaskState} {n : Int}
    (h : releasedState q (n - 1) = none) : q.phase = .pending → n ≠ 1 := by
  intro hp hn
  cases q <;> simp [releasedState, TaskState.phase, hn] at h hp

theorem releasedState_some {q q' : TaskState} {n : Int}
    (h : releasedState q (n - 1) = some q') :
    (q = .pending ∧ q' = .ready ∨ q = .remotePending ∧ q' = .remoteReady) ∧
      n = 1 := by
  cases q <;> simp only [releasedState, reduceCtorEq] at h
  case pending =>
    obtain ⟨hn, ⟨⟩⟩ := Option.ite_none_right_eq_some.mp h
    exact ⟨Or.inl ⟨rfl, rfl⟩, by omega⟩
  case remotePending =>
    obtain ⟨hn, ⟨⟩⟩ := Option.ite_none_right_eq_some.mp h
    exact ⟨Or.inr ⟨rfl, rfl⟩, by omega⟩

theorem move_decrementAll {s : State ι} {i : Nat} {tmp : List ι}
    {isAborting : Bool} {st : List (Frame ι)}
    (hi : s.threads[i]? = some (.decrementAll tmp isAborting :: st)) :
    Move cls s i (stepDecrementAll s i tmp isAborting st) := by
  cases tmp with
  | nil => exact Move.released hi
  | cons r rest =>
      unfold stepDecrementAll
      cases hrel : releasedState (s.task r).state
          ((s.task r).numPredecessors - 1) with
      | none =>
          simp only [hrel]
          exact Move.signal hi (releasedState_none hrel)
      | some q =>
          simp only [hrel]
          obtain ⟨hq, hn⟩ := releasedState_some hrel
          cases isAborting with
          | true => exact Move.releaseCancel hi hq hn
          | false => exact Move.release hi hq hn

theorem move_ret {s s' : State ι} {i : Nat} {cont : Option ι}
    {st : List (Frame ι)} (hi : s.threads[i]? = some st)
    (h : stepRet s i cont st = some s') : Move cls s i s' := by
  cases st with
  | nil => exact nomatch h
  | cons f st =>
      cases f with
      | run a =>
          cases cont with
          | none => cases h; exact Move.retNone hi
          | some c =>
              simp only [stepRet] at h
              by_cases hs : s.canSeal c = true
              · rw [if_pos hs] at h; cases h; exact Move.retSome hi hs
              · rw [if_neg hs] at h; exact nomatch h
      | gpuRun a => cases h; exact Move.gpuRet hi
      | _ => exact nomatch h

theorem move_call {s s' : State ι} {i : Nat} {st : List (Frame ι)}
    {act : Act ι} (hi : s.threads[i]? = some st)
    (h : call cls s i st act = some s') : Move cls s i s' := by
  cases act with
  | callDependsOn a b =>
      simp only [call] at h
      by_cases hs : s.sealed a = true
      · rw [if_pos hs] at h; exact nomatch h
      · rw [if_neg hs] at h; cases h
        exact Move.callDependsOn hi (by simpa using hs)
  | callEnqueue a =>
      simp only [call] at h
      by_cases hs : s.canSeal a = true
      · rw [if_pos hs] at h; cases h; exact Move.callEnqueue hi hs
      · rw [if_neg hs] at h; exact nomatch h
  | recvInitial a =>
      simp only [call] at h
      by_cases hg : (s.canSeal a && cls a == .remoteTask &&
          (s.task a).numPredecessors == 0) = true
      · rw [if_pos hg] at h
        simp only [Bool.and_eq_true, beq_iff_eq] at hg
        obtain ⟨⟨hs, hc⟩, hn⟩ := hg
        simp only [inlineOrEnqueueTask] at h
        rw [if_neg (by rw [hc]; exact Bool.noConfusion)] at h
        cases h
        exact Move.recvInitial hi hs hc hn
      · rw [if_neg hg] at h; exact nomatch h
  | onComplete a =>
      simp only [call] at h
      by_cases hq : s.remoteOut.contains a = true
      · rw [if_pos hq] at h; cases h
        exact Move.onComplete hi (by simpa using hq)
      · rw [if_neg hq] at h; exact nomatch h
  | pop a isAborting =>
      simp only [call] at h
      by_cases hq : s.queue.contains a = true
      · rw [if_pos hq] at h; cases h
        exact Move.pop hi (by simpa using hq)
      · rw [if_neg hq] at h; exact nomatch h
  | gpuRunWrapper =>
      cases hq : s.gpuQueue with
      | nil => simp only [call, hq] at h; exact nomatch h
      | cons a rest =>
          simp only [call, hq] at h; cases h; exact Move.gpuRunWrapper hi hq
  | gpuSkip =>
      cases hq : s.gpuQueue with
      | nil => simp only [call, hq] at h; exact nomatch h
      | cons a rest =>
          simp only [call, hq] at h; cases h; exact Move.gpuSkip hi hq
  | gpuRun =>
      cases hq : s.gpuQueue with
      | nil => simp only [call, hq] at h; exact nomatch h
      | cons a rest =>
          simp only [call, hq] at h; cases h; exact Move.gpuRun hi hq
  | gpuNotDone =>
      cases hq : s.gpuQueue with
      | nil => simp only [call, hq] at h; exact nomatch h
      | cons a rest =>
          simp only [call, hq] at h; cases h; exact Move.gpuNotDone hq
  | ret cont => exact nomatch h
  | advance toSelf => exact nomatch h

theorem move_advance {s s' : State ι} {i : Nat} {toSelf : Bool}
    {st : List (Frame ι)} (hi : s.threads[i]? = some st)
    (h : advance cls s i toSelf st = some s') : Move cls s i s' := by
  cases st with
  | nil => exact nomatch h
  | cons f st =>
      cases f with
      | dependsOn a b => cases h; exact move_dependsOn hi
      | enqueue a => cases h; exact move_enqueue hi
      | dispatch a => cases h; exact move_dispatch hi
      | runWrapper a ab => cases h; exact move_runWrapper hi
      | completeTaskDeps a ab => cases h; exact move_completeTaskDeps hi
      | handDown c tmp => cases h; exact Move.handDown hi
      | decrementAll tmp ab => cases h; exact move_decrementAll hi
      | run a => exact nomatch h
      | gpuRun a => exact nomatch h

/-- **INVERSION**: a step is one of the moves. -/
theorem move_of_step {s s' : State ι} {l : Nat × Act ι}
    (h : step cls s l = some s') : Move cls s l.1 s' := by
  obtain ⟨i, act⟩ := l
  unfold step at h
  by_cases hv : s.violated.isSome = true
  · rw [if_pos hv] at h; exact nomatch h
  rw [if_neg hv] at h
  cases hi : s.threads[i]? with
  | none => simp only [hi] at h; exact nomatch h
  | some st =>
      simp only [hi] at h
      cases act with
      | advance toSelf => exact move_advance hi h
      | ret cont => exact move_ret hi h
      | _ =>
          by_cases hcan : canCall st = true
          · simp only [if_pos hcan] at h; exact move_call hi h
          · simp only [if_neg hcan] at h; exact nomatch h

end PbDynamicTask
