import Mathlib.Logic.Function.Basic
import Mathlib.Data.List.Basic
import PetaBricks.TransitionProofs
import PetaBricks.CallStackProofs

/-! # DynamicTask — the task system as a transition system

    `dynamictask.cpp` with the overrides of `remotetask.cpp`,
    `gpudynamictask.cpp` and `gpumanager.cpp`.  Every lock-protected section of
    the source is one step; between two steps of a thread any other thread may
    act.  What a thread has still to do is its call stack (`Frame`), because
    `completeTaskDeps` runs inlined tasks and cancelled tasks as nested calls,
    and `waitUntilComplete` runs other tasks inside a task.

    A thread whose task throws out of `run()` (an abort) is here a thread that
    never steps again beside a fresh one: the number of threads is arbitrary.

    All worker queues are one pool `queue`: which deque a task waits in decides
    when it runs, never whether.  Reference counts are left out.  A failed
    `JASSERT` ends the program: `violated` is set and no step follows. -/

namespace PbDynamicTask

open PbTransition PbCallStack

/-- `DynamicTask::TaskState`. -/
inductive TaskState where
  | new | pending | ready | complete | continued
  | remoteNew | remotePending | remoteReady
  deriving DecidableEq, Repr

/-- `DynamicTask::TaskType`, the processor a task runs on. -/
inductive TaskType where
  | cpu | opencl
  deriving DecidableEq, Repr

/-- The classes of tasks that differ in what the task system does with them. -/
inductive TaskClass where
  | dynamicTask | nullDynamicTask | remoteTask | gpuDynamicTask
  deriving DecidableEq, Repr

/-- `_type` as the constructors set it. -/
def TaskClass.type : TaskClass → TaskType
  | .gpuDynamicTask => .opencl
  | _ => .cpu

/-- `_state` as the constructors set it. -/
def TaskClass.initialState : TaskClass → TaskState
  | .remoteTask | .gpuDynamicTask => .remoteNew
  | _ => .new

/-- `isNullTask()`. -/
def TaskClass.isNullTask : TaskClass → Bool
  | .nullDynamicTask => true
  | _ => false

/-- Not enqueued yet: `dependsOn` accepts the task. -/
def TaskState.isNew : TaskState → Bool
  | .new | .remoteNew => true
  | _ => false

/-- Enqueued, waiting for predecessors. -/
def TaskState.isPending : TaskState → Bool
  | .pending | .remotePending => true
  | _ => false

/-- All dependencies met, not yet finished. -/
def TaskState.isReady : TaskState → Bool
  | .ready | .remoteReady => true
  | _ => false

/-- `completeTaskDeps` has set the final state. -/
def TaskState.isDone : TaskState → Bool
  | .complete | .continued => true
  | _ => false

/-- The data members of `DynamicTask` (its `_type` is `TaskClass.type`). -/
structure Task (ι : Type) where
  state : TaskState
  numPredecessors : Int
  dependents : List ι
  continuation : Option ι

/-- What a thread has on its call stack. -/
inductive Frame (ι : Type) where
  | dependsOn (a b : ι)
  | enqueue (a : ι)
  | dispatch (a : ι)
  | runWrapper (a : ι) (isAborting : Bool)
  | run (a : ι)
  | gpuRun (a : ι)
  | completeTaskDeps (a : ι) (isAborting : Bool)
  | handDown (c : ι) (tmp : List ι)
  | decrementAll (tmp : List ι) (isAborting : Bool)
  deriving DecidableEq, Repr

/-- Where a task goes that became ready. -/
inductive Target where
  | workerQueue | inlined | remoteHost | gpuManager | cancelled
  deriving DecidableEq, Repr

/-- What happened so far, newest first. -/
inductive Event (ι : Type) where
  | dependsOn (a b : ι)
  | registered (a : ι)
  | signalled (a : ι)
  | dispatched (a : ι) (target : Target)
  | ran (a : ι)
  | cancelled (a : ι)
  | skipped (a : ι)
  | ranRemotely (a : ι)
  deriving DecidableEq, Repr

/-- The assertions of `dynamictask.cpp`. -/
inductive Assertion (ι : Type) where
  | selfDependency (a : ι)
  | dependsOnAfterEnqueue (a : ι)
  | enqueueState (a : ι)
  | dispatchState (a : ι)
  | remoteScheduleUnimplemented (a : ι)
  | runWrapperState (a : ι) (isAborting : Bool)
  deriving DecidableEq, Repr

/-- The whole task system. -/
structure State (ι : Type) where
  task : ι → Task ι
  threads : List (List (Frame ι))
  queue : List ι
  remoteOut : List ι
  gpuQueue : List ι
  /-- `enqueue` was called, or the task was returned as a continuation. -/
  sealed : ι → Bool
  log : List (Event ι)
  violated : Option (Assertion ι)

/-- What the user code of a running task, or an idle thread, may do. -/
inductive Act (ι : Type) where
  | callDependsOn (a b : ι)
  | callEnqueue (a : ι)
  | recvInitial (a : ι)
  | onComplete (a : ι)
  | pop (a : ι) (isAborting : Bool)
  | gpuRunWrapper
  | gpuSkip
  | gpuRun
  | gpuNotDone
  | ret (cont : Option ι)
  | advance (toSelf : Bool)
  deriving DecidableEq, Repr

section Steps

variable {ι : Type} [DecidableEq ι] (cls : ι → TaskClass)

/-- Store a task's fields. -/
def State.setTask (s : State ι) (a : ι) (t : Task ι) : State ι :=
  { s with task := Function.update s.task a t }

/-- Replace a thread's call stack. -/
def State.setStack (s : State ι) (i : Nat) (st : List (Frame ι)) : State ι :=
  { s with threads := s.threads.set i st }

/-- Record an event. -/
def State.note (s : State ι) (e : Event ι) : State ι :=
  { s with log := e :: s.log }

/-- A failed `JASSERT`. -/
def State.fail (s : State ι) (v : Assertion ι) : State ι :=
  { s with violated := some v }

/-- The task can no longer be the subject of `dependsOn` or `enqueue`. -/
def State.seal (s : State ι) (a : ι) : State ι :=
  { s with sealed := Function.update s.sealed a true }

/-- User code runs on this stack: inside some `run()`, or on an idle thread. -/
def canCall : List (Frame ι) → Bool
  | [] => true
  | .run _ :: _ => true
  | .gpuRun _ :: _ => true
  | _ => false

/-- The frame is a call of `a.dependsOn`. -/
def Frame.isDependsOn (a : ι) : Frame ι → Bool
  | .dependsOn x _ => x == a
  | _ => false

/-- All calls of `a.dependsOn` have returned, and nobody enqueued `a`:
    what calling `a.enqueue()` states ("all dependencies have been
    registered"). -/
def State.canSeal (s : State ι) (a : ι) : Bool :=
  !s.sealed a && s.threads.all (fun st => st.all (fun f => !f.isDependsOn a))

/-- The state `enqueue` gives a task, by its predecessor count. -/
def enqueuedState : TaskState → Int → Option TaskState
  | .new, n => some (if n = 0 then .ready else .pending)
  | .remoteNew, n => some (if n = 0 then .remoteReady else .remotePending)
  | _, _ => none

/-- The state `decrementPredecessors` gives a task whose last predecessor
    completed; `none` where it should not be enqueued. -/
def releasedState : TaskState → Int → Option TaskState
  | .pending, n => if n = 0 then some .ready else none
  | .remotePending, n => if n = 0 then some .remoteReady else none
  | _, _ => none

/-- The assertion at the head of `runWrapper`. -/
def runnable (c : TaskClass) (t : Task ι) : Bool :=
  ((t.state == .ready && c.type == .cpu) ||
    (t.state == .remoteReady && c.type == .opencl)) && t.numPredecessors == 0

/-- `inlineOrEnqueueTask`, called with `st` below. -/
def inlineOrEnqueueTask (s : State ι) (i : Nat) (a : ι)
    (st : List (Frame ι)) : State ι :=
  if (cls a).isNullTask then
    (s.setStack i (.runWrapper a false :: st)).note (.dispatched a .inlined)
  else
    { (s.setStack i st).note (.dispatched a .workerQueue) with
      queue := a :: s.queue }

/-- `remoteScheduleTask` of the task's class; `toSelf` is the choice a
    `RemoteTask` makes from where its data is. -/
def remoteScheduleTask (s : State ι) (i : Nat) (a : ι) (toSelf : Bool)
    (st : List (Frame ι)) : State ι :=
  match cls a with
  | .remoteTask =>
      if toSelf then
        inlineOrEnqueueTask cls
          (s.setTask a { s.task a with state := .ready }) i a st
      else
        { (s.setStack i st).note (.dispatched a .remoteHost) with
          remoteOut := a :: s.remoteOut }
  | .gpuDynamicTask =>
      { (s.setStack i st).note (.dispatched a .gpuManager) with
        gpuQueue := s.gpuQueue ++ [a] }
  | _ => s.fail (.remoteScheduleUnimplemented a)

/-- One step of `a.dependsOn(b)`: the locked section, or the recursive call on
    `b`'s continuation. -/
def stepDependsOn (s : State ι) (i : Nat) (a b : ι) (st : List (Frame ι)) :
    State ι :=
  if b = a then s.fail (.selfDependency a)
  else if (s.task a).state.isNew = false then s.fail (.dependsOnAfterEnqueue a)
  else
    match (s.task b).state with
    | .continued =>
        match (s.task b).continuation with
        | some c => s.setStack i (.dependsOn a c :: st)
        | none => s.setStack i st
    | .complete => s.setStack i st
    | _ =>
        ((((s.setTask b { s.task b with
                dependents := (s.task b).dependents ++ [a] }).setTask a
              { s.task a with
                numPredecessors := (s.task a).numPredecessors + 1 }).setStack
            i st).note (.registered a))

/-- `enqueue` up to the end of its locked section. -/
def stepEnqueue (s : State ι) (i : Nat) (a : ι) (st : List (Frame ι)) :
    State ι :=
  match enqueuedState (s.task a).state (s.task a).numPredecessors with
  | none => s.fail (.enqueueState a)
  | some q =>
      (s.setTask a { s.task a with state := q }).setStack i
        (if (s.task a).numPredecessors = 0 then .dispatch a :: st else st)

/-- What `enqueue` and `decrementPredecessors` do with a task that became
    ready. -/
def stepDispatch (s : State ι) (i : Nat) (a : ι) (toSelf : Bool)
    (st : List (Frame ι)) : State ι :=
  match (s.task a).state with
  | .ready => inlineOrEnqueueTask cls s i a st
  | .remoteReady => remoteScheduleTask cls s i a toSelf st
  | _ => s.fail (.dispatchState a)

/-- `runWrapper` up to its call of `run()`, or of `completeTaskDeps`. -/
def stepRunWrapper (s : State ι) (i : Nat) (a : ι) (isAborting : Bool)
    (st : List (Frame ι)) : State ι :=
  if runnable (cls a) (s.task a) then
    if isAborting then
      ((s.setTask a { s.task a with continuation := none }).setStack i
        (.completeTaskDeps a true :: st)).note (.cancelled a)
    else
      (s.setStack i (.run a :: st)).note (.ran a)
  else s.fail (.runWrapperState a isAborting)

/-- The locked section of `completeTaskDeps`. -/
def stepCompleteTaskDeps (s : State ι) (i : Nat) (a : ι) (isAborting : Bool)
    (st : List (Frame ι)) : State ι :=
  match (s.task a).continuation with
  | some c =>
      (s.setTask a { s.task a with dependents := [], state := .continued }).setStack
        i (.handDown c (s.task a).dependents :: st)
  | none =>
      (s.setTask a { s.task a with dependents := [], state := .complete }).setStack
        i (.decrementAll (s.task a).dependents isAborting :: st)

/-- The dependents move to the continuation, which is then enqueued. -/
def stepHandDown (s : State ι) (i : Nat) (c : ι) (tmp : List ι)
    (st : List (Frame ι)) : State ι :=
  (s.setTask c { s.task c with
    dependents := (s.task c).dependents ++ tmp }).setStack i (.enqueue c :: st)

/-- One turn of the loop over the released dependents, with the locked section
    of `decrementPredecessors`. -/
def stepDecrementAll (s : State ι) (i : Nat) (tmp : List ι) (isAborting : Bool)
    (st : List (Frame ι)) : State ι :=
  match tmp with
  | [] => s.setStack i st
  | r :: rest =>
      let n := (s.task r).numPredecessors - 1
      let below := Frame.decrementAll rest isAborting :: st
      match releasedState (s.task r).state n with
      | none =>
          ((s.setTask r { s.task r with numPredecessors := n }).setStack i
            below).note (.signalled r)
      | some q =>
          let s' := (s.setTask r { s.task r with
            numPredecessors := n, state := q }).note (.signalled r)
          if isAborting then
            (s'.setStack i (.runWrapper r true :: below)).note
              (.dispatched r .cancelled)
          else s'.setStack i (.dispatch r :: below)

/-- The step of the top frame.  User code (`run`) does not advance by
    itself. -/
def advance (s : State ι) (i : Nat) (toSelf : Bool) :
    List (Frame ι) → Option (State ι)
  | .dependsOn a b :: st => some (stepDependsOn s i a b st)
  | .enqueue a :: st => some (stepEnqueue s i a st)
  | .dispatch a :: st => some (stepDispatch cls s i a toSelf st)
  | .runWrapper a ab :: st => some (stepRunWrapper cls s i a ab st)
  | .completeTaskDeps a ab :: st => some (stepCompleteTaskDeps s i a ab st)
  | .handDown c tmp :: st => some (stepHandDown s i c tmp st)
  | .decrementAll tmp ab :: st => some (stepDecrementAll s i tmp ab st)
  | _ => none

/-- `run()` returns.  A returned continuation is a task nobody enqueued; what
    `GpuManager::run` gets back it drops. -/
def stepRet (s : State ι) (i : Nat) (cont : Option ι) :
    List (Frame ι) → Option (State ι)
  | .run a :: st =>
      match cont with
      | none =>
          some ((s.setTask a { s.task a with continuation := none }).setStack i
            (.completeTaskDeps a false :: st))
      | some c =>
          if s.canSeal c then
            some (((s.setTask a { s.task a with
              continuation := some c }).seal c).setStack i
                (.completeTaskDeps a false :: st))
          else none
  | .gpuRun a :: st => some (s.setStack i (.completeTaskDeps a false :: st))
  | _ => none

/-- What a thread may start when it runs user code or idles. -/
def call (s : State ι) (i : Nat) (st : List (Frame ι)) :
    Act ι → Option (State ι)
  | .callDependsOn a b =>
      if s.sealed a then none
      else some ((s.setStack i (.dependsOn a b :: st)).note (.dependsOn a b))
  | .callEnqueue a =>
      if s.canSeal a then some ((s.seal a).setStack i (.enqueue a :: st))
      else none
  -- enqueueLocal of a task unserialized from a remote host
  | .recvInitial a =>
      if s.canSeal a && cls a == .remoteTask && (s.task a).numPredecessors == 0
      then
        some (inlineOrEnqueueTask cls ((s.seal a).setTask a
          { s.task a with state := .ready }) i a st)
      else none
  -- onCompletedRemotely
  | .onComplete a =>
      if s.remoteOut.contains a then
        some { (s.setStack i (.completeTaskDeps a false :: st)).note
                (.ranRemotely a) with remoteOut := s.remoteOut.erase a }
      else none
  | .pop a isAborting =>
      if s.queue.contains a then
        some { s.setStack i (.runWrapper a isAborting :: st) with
                queue := s.queue.erase a }
      else none
  | .gpuRunWrapper =>
      match s.gpuQueue with
      | [] => none
      | a :: rest =>
          some { s.setStack i (.runWrapper a false :: st) with
                  gpuQueue := rest }
  | .gpuSkip =>
      match s.gpuQueue with
      | [] => none
      | a :: rest =>
          some { (s.setStack i (.completeTaskDeps a false :: st)).note
                  (.skipped a) with gpuQueue := rest }
  | .gpuRun =>
      match s.gpuQueue with
      | [] => none
      | a :: rest =>
          some { (s.setStack i (.gpuRun a :: st)).note (.ran a) with
                  gpuQueue := rest }
  | .gpuNotDone =>
      match s.gpuQueue with
      | [] => none
      | a :: rest => some { s with gpuQueue := rest ++ [a] }
  | _ => none

/-- One step of thread `l.1`. -/
def step (s : State ι) (l : Nat × Act ι) : Option (State ι) :=
  if s.violated.isSome then none
  else
    match s.threads[l.1]? with
    | none => none
    | some st =>
        match l.2 with
        | .advance toSelf => advance cls s l.1 toSelf st
        | .ret cont => stepRet s l.1 cont st
        | a => if canCall st then call cls s l.1 st a else none

/-- Tasks as their constructors leave them, any number of idle threads. -/
def Initial (s : State ι) : Prop :=
  (∀ a, s.task a = ⟨(cls a).initialState, 0, [], none⟩) ∧
  (∀ st ∈ s.threads, st = []) ∧
  s.queue = [] ∧ s.remoteOut = [] ∧ s.gpuQueue = [] ∧
  (∀ a, s.sealed a = false) ∧ s.log = [] ∧ s.violated = none

/-- The task system. -/
def system : System (State ι) (Nat × Act ι) where
  init := Initial cls
  next := step cls

end Steps

end PbDynamicTask
