import PetaBricks.DynamicTaskSafetyProofs

/-! # DynamicTask cancellation — what an abort drains

    `cancel()` is `runWrapper(true)`: the task completes without running, and
    `decrementPredecessors(true)` cancels in turn every dependent that becomes
    ready.  That goes wrong in one place.  A `RemoteTask` in `S_REMOTE_PENDING`
    whose last predecessor is cancelled gets `S_REMOTE_READY`, and `runWrapper`
    asserts that a task in this state is a GPU task.

    In runs without such a release no task reaches `runWrapper` in a wrong
    state, and a thread that cancels a task finishes by its own steps, with
    every dependent it met signalled once. -/

namespace PbDynamicTask

open PbTransition PbCallStack

variable {ι : Type} [DecidableEq ι] {cls : ι → TaskClass}

/-- Thread `i` is about to signal, while cancelling, the last predecessor of a
    `RemoteTask` that waits in `S_REMOTE_PENDING`. -/
def cancelsRemote (cls : ι → TaskClass) (s : State ι) (i : Nat) : Bool :=
  match s.threads[i]? with
  | some (.decrementAll (r :: _) true :: _) =>
      cls r == .remoteTask && (s.task r).state == .remotePending &&
        (s.task r).numPredecessors == 1
  | _ => false

/-- The task system without such releases. -/
def abortSystem (cls : ι → TaskClass) : System (State ι) (Nat × Act ι) :=
  (system cls).restrict fun s l => cancelsRemote cls s l.1 = false

/-! ## No wrong state before `runWrapper` -/

/-- What holds in addition while no `RemoteTask` is cancelled. -/
structure NoRemoteCancel (cls : ι → TaskClass) (s : State ι) : Prop where
  cancelled : ∀ a, .dispatched a .cancelled ∈ s.log → cls a ≠ .remoteTask
  violated : ∀ a ab, s.violated ≠ some (.runWrapperState a ab)

section Moves

variable [Fintype ι] {s s' : State ι} {i : Nat}

/-- Before `runWrapper` a task is in the state its processor type asks for. -/
theorem runnable_of_wrapper (h : Inv s) (hp : Places cls s)
    (hn : NoRemoteCancel cls s) {a : ι} {ab : Bool}
    (ha : OnStack (.runWrapper a ab) s.threads) :
    runnable (cls a) (s.task a) = true := by
  have hzero : (s.task a).numPredecessors = 0 := h.reached a (by
    rw [h.ready_of_frame ha (a := a) (by simp [Frame.active])]; rfl)
  rcases hp.wrapper a ab ha with hst | ⟨hst, hc⟩
  · have hcpu := states_ready (hst ▸ hp.states a)
    simp [runnable, hst, hcpu, hzero]
  · have hgpu : cls a = .gpuDynamicTask := by
      rcases hc with hc | hlog
      · exact hc
      · have hrem := hn.cancelled a hlog
        have hmem := hp.states a
        rw [hst] at hmem
        revert hrem hmem
        cases cls a <;> decide
    simp [runnable, hst, hgpu, TaskClass.type, hzero]

omit [Fintype ι] in
theorem cancelled_move (hp : Places cls s) (hn : NoRemoteCancel cls s)
    (hok : cancelsRemote cls s i = false) (hm : Move cls s i s') :
    ∀ a, .dispatched a .cancelled ∈ s'.log → cls a ≠ .remoteTask := by
  intro x hx
  cases hm with
  | @releaseCancel st r rest q hi hq hn1 =>
      by_cases hxr : x = r
      · subst hxr
        intro hc
        have hst : (s.task x).state = .remotePending := by
          rcases hq with ⟨hst, -⟩ | ⟨hst, -⟩
          · have hmem := hp.states x
            rw [hst, hc] at hmem
            exact absurd hmem (by decide)
          · exact hst
        simp [cancelsRemote, hi, hc, hst, hn1] at hok
      · refine hn.cancelled x ?_
        simpa [State.note, State.setStack, State.setTask, hxr] using hx
  | _ =>
      refine hn.cancelled x ?_
      simpa [State.note, State.setStack, State.setTask, State.seal,
        State.fail] using hx

theorem violated_move (h : Inv s) (hp : Places cls s)
    (hn : NoRemoteCancel cls s) (hm : Move cls s i s') :
    ∀ a ab, s'.violated ≠ some (.runWrapperState a ab) := by
  intro x ab hx
  cases hm with
  | fail v hv =>
      obtain ⟨hon, hbad⟩ := hv x ab (Option.some.inj hx)
      exact absurd (runnable_of_wrapper h hp hn hon)
        (by rw [hbad]; exact Bool.noConfusion)
  | _ => exact hn.violated x ab hx

theorem NoRemoteCancel.move (h : Inv s) (hp : Places cls s)
    (hn : NoRemoteCancel cls s) (hok : cancelsRemote cls s i = false)
    (hm : Move cls s i s') : NoRemoteCancel cls s' :=
  ⟨cancelled_move hp hn hok hm, violated_move h hp hn hm⟩

omit [DecidableEq ι] [Fintype ι] in
theorem NoRemoteCancel.initial (h : Initial cls s) : NoRemoteCancel cls s := by
  obtain ⟨-, -, -, -, -, -, hlog, hv⟩ := h
  refine ⟨fun a ha => ?_, fun a ab ha => ?_⟩
  · rw [hlog] at ha; exact nomatch ha
  · rw [hv] at ha; exact nomatch ha

theorem noRemoteCancel_of_reachable (h : Reachable (abortSystem cls) s) :
    Inv s ∧ Places cls s ∧ NoRemoteCancel cls s :=
  Reachable.invariant_restrict
    (fun s => Inv s ∧ Places cls s ∧ NoRemoteCancel cls s) h
    (fun _ hs => ⟨Inv.initial hs, Places.initial hs, NoRemoteCancel.initial hs⟩)
    (fun _ _ _ hs hok hn =>
      have hm := move_of_step hn
      ⟨hs.1.move hm, hs.2.1.move hs.1 hm, hs.2.2.move hs.1 hs.2.1 hok hm⟩)

end Moves

/-! ## Draining -/

/-- The order of the phases. -/
def Phase.rank : Phase → Nat
  | .new => 0
  | .pending => 1
  | .ready => 2
  | .done => 3

/-- The frame is one of those a cancelled task goes through. -/
def State.Cancelling (s : State ι) : Frame ι → Prop
  | .runWrapper _ isAborting => isAborting = true
  | .completeTaskDeps a isAborting =>
      isAborting = true ∧ (s.task a).continuation = none
  | .decrementAll _ isAborting => isAborting = true
  | _ => False

/-- What a cancelling frame still has to do. -/
def Frame.work : Frame ι → Nat
  | .runWrapper _ _ => 3
  | .completeTaskDeps _ _ => 2
  | .decrementAll tmp _ => 4 * tmp.length + 1
  | _ => 0

/-- What a thread can still have to do when it cancels its frames `fr` and all
    tasks these lead to. -/
def drainWork [Fintype ι] (s : State ι) (fr : List (Frame ι)) : Nat :=
  4 * ∑ c, (s.task c).dependents.length + (fr.map Frame.work).sum

/-- What a thread's cancelling leaves behind when its stack is down to
    `st`. -/
structure Drained (s t : State ι) (i : Nat) (st : List (Frame ι)) : Prop where
  threads : t.threads = s.threads.set i st
  queue : t.queue = s.queue
  remoteOut : t.remoteOut = s.remoteOut
  gpuQueue : t.gpuQueue = s.gpuQueue
  violated : t.violated = none
  registered : ∀ b, t.log.count (.registered b) = s.log.count (.registered b)
  rank : ∀ a, (s.phase a).rank ≤ (t.phase a).rank
  continued : ∀ a, (t.task a).state = .continued →
    (s.task a).state = .continued

omit [DecidableEq ι] in
theorem Drained.trans {s t u : State ι} {i : Nat} {st st' : List (Frame ι)}
    [DecidableEq ι] (h : Drained s t i st') (h' : Drained t u i st) :
    Drained s u i st where
  threads := by rw [h'.threads, h.threads, List.set_set]
  queue := h'.queue.trans h.queue
  remoteOut := h'.remoteOut.trans h.remoteOut
  gpuQueue := h'.gpuQueue.trans h.gpuQueue
  violated := h'.violated
  registered := fun b => (h'.registered b).trans (h.registered b)
  rank := fun a => (h.rank a).trans (h'.rank a)
  continued := fun a ha => h.continued a (h'.continued a ha)

attribute [local simp] State.setTask State.setStack State.note State.seal
  State.fail update_state update_numPredecessors update_dependents
  update_continuation keep_state keep_numPredecessors keep_dependents
  keep_continuation

section Drain

variable [Fintype ι] {s : State ι} {i : Nat} {fr st : List (Frame ι)}

/-- Storing a task changes the lengths by that list's length. -/
theorem sum_length_update (f : ι → Task ι) (b : ι) (t : Task ι) :
    ∑ c, (Function.update f b t c).dependents.length
        + (f b).dependents.length
      = ∑ c, (f c).dependents.length + t.dependents.length :=
  sum_update (fun t => t.dependents.length) f b t

/-- One step of a cancelling thread: its next frames are cancelling again, and
    there is less to do. -/
structure DrainStep (cls : ι → TaskClass) (s : State ι) (i : Nat)
    (fr st : List (Frame ι)) (s' : State ι) (fr' : List (Frame ι)) :
    Prop where
  drained : Drained s s' i (fr' ++ st)
  cancelling : ∀ f ∈ fr', s'.Cancelling f
  work : drainWork s' fr' < drainWork s fr

theorem drainStep_runWrapper {a : ι} (hv : s.violated = none)
    (hfr : ∀ f ∈ fr, s.Cancelling f) :
    DrainStep cls s i (.runWrapper a true :: fr) st
      (((s.setTask a { s.task a with continuation := none }).setStack i
        (.completeTaskDeps a true :: (fr ++ st))).note (.cancelled a))
      (.completeTaskDeps a true :: fr) := by
  have hlen := sum_length_update s.task a
    { s.task a with continuation := none }
  refine ⟨⟨rfl, rfl, rfl, rfl, hv, by simp, by simp [State.phase],
    by simp⟩, ?_, ?_⟩
  · intro f hf
    rcases List.mem_cons.mp hf with rfl | hf
    · simp [State.Cancelling]
    · have hc := hfr f hf
      cases f with
      | completeTaskDeps x ab =>
          refine ⟨hc.1, ?_⟩
          by_cases hxa : x = a
          · simp [hxa]
          · simpa [hxa] using hc.2
      | _ => exact hc
  · simp [drainWork, Frame.work] at hlen ⊢

theorem drainStep_completeTaskDeps {a : ι} (h : Inv s)
    (hi : s.threads[i]? = some (.completeTaskDeps a true :: (fr ++ st)))
    (hv : s.violated = none) (hfr : ∀ f ∈ fr, s.Cancelling f) :
    DrainStep cls s i (.completeTaskDeps a true :: fr) st
      ((s.setTask a { s.task a with
        dependents := [], state := .complete }).setStack
          i (.decrementAll (s.task a).dependents true :: (fr ++ st)))
      (.decrementAll (s.task a).dependents true :: fr) := by
  have hlen := sum_length_update s.task a
    { s.task a with dependents := [], state := .complete }
  have hready := h.ready_of_frame (a := a) (onStack_top hi)
    (by simp [Frame.active])
  refine ⟨⟨rfl, rfl, rfl, rfl, hv, by simp, ?_, ?_⟩, ?_, ?_⟩
  · intro x
    by_cases hxa : x = a
    · subst hxa
      rw [hready]
      simp [State.phase, Phase.rank]
    · simp [State.phase, hxa]
  · intro x hx
    by_cases hxa : x = a
    · simp [hxa] at hx
    · simpa [hxa] using hx
  · intro f hf
    rcases List.mem_cons.mp hf with rfl | hf
    · rfl
    · have hc := hfr f hf
      cases f with
      | completeTaskDeps x ab => exact ⟨hc.1, by simpa using hc.2⟩
      | _ => exact hc
  · simp [drainWork, Frame.work] at hlen ⊢
    omega

theorem drainStep_released (hv : s.violated = none)
    (hfr : ∀ f ∈ fr, s.Cancelling f) :
    DrainStep cls s i (.decrementAll [] true :: fr) st
      (s.setStack i (fr ++ st)) fr :=
  ⟨⟨rfl, rfl, rfl, rfl, hv, fun _ => rfl, fun _ => le_refl _, fun _ h => h⟩,
    hfr, by simp [drainWork, Frame.work]⟩

theorem drainStep_signal {r : ι} {rest : List ι} (hv : s.violated = none)
    (hfr : ∀ f ∈ fr, s.Cancelling f) :
    DrainStep cls s i (.decrementAll (r :: rest) true :: fr) st
      (((s.setTask r { s.task r with
        numPredecessors := (s.task r).numPredecessors - 1 }).setStack i
          (.decrementAll rest true :: (fr ++ st))).note (.signalled r))
      (.decrementAll rest true :: fr) := by
  have hlen := sum_length_update s.task r
    { s.task r with numPredecessors := (s.task r).numPredecessors - 1 }
  refine ⟨⟨rfl, rfl, rfl, rfl, hv, by simp, by simp [State.phase],
    by simp⟩, ?_, ?_⟩
  · intro f hf
    rcases List.mem_cons.mp hf with rfl | hf
    · rfl
    · have hc := hfr f hf
      cases f with
      | completeTaskDeps x ab => exact ⟨hc.1, by simpa using hc.2⟩
      | _ => exact hc
  · simp [drainWork, Frame.work] at hlen ⊢

theorem drainStep_release {r : ι} {rest : List ι} {q : TaskState}
    (hv : s.violated = none) (hfr : ∀ f ∈ fr, s.Cancelling f)
    (hq : releasedState (s.task r).state ((s.task r).numPredecessors - 1)
      = some q) :
    DrainStep cls s i (.decrementAll (r :: rest) true :: fr) st
      ((((s.setTask r { s.task r with
        numPredecessors := (s.task r).numPredecessors - 1,
        state := q }).note (.signalled r)).setStack i
          (.runWrapper r true :: .decrementAll rest true ::
            (fr ++ st))).note (.dispatched r .cancelled))
      (.runWrapper r true :: .decrementAll rest true :: fr) := by
  have hlen := sum_length_update s.task r
    { s.task r with
      numPredecessors := (s.task r).numPredecessors - 1, state := q }
  obtain ⟨hpq, -⟩ := releasedState_some hq
  obtain ⟨hold, hnew⟩ := pending_to_ready hpq
  refine ⟨⟨rfl, rfl, rfl, rfl, hv, by simp, ?_, ?_⟩, ?_, ?_⟩
  · intro x
    by_cases hxr : x = r
    · subst hxr; simp [State.phase, hold, hnew, Phase.rank]
    · simp [State.phase, hxr]
  · intro x hx
    by_cases hxr : x = r
    · subst hxr
      rcases hpq with ⟨-, rfl⟩ | ⟨-, rfl⟩ <;> simp at hx
    · simpa [hxr] using hx
  · intro f hf
    rcases List.mem_cons.mp hf with rfl | hf
    · rfl
    rcases List.mem_cons.mp hf with rfl | hf
    · rfl
    · have hc := hfr f hf
      cases f with
      | completeTaskDeps x ab => exact ⟨hc.1, by simpa using hc.2⟩
      | _ => exact hc
  · simp [drainWork, Frame.work] at hlen ⊢
    omega

/-- **PROGRESS**: a cancelling thread can always take a step of its own. -/
theorem drain_step (h : Inv s) (hp : Places cls s)
    (hn : NoRemoteCancel cls s) {f : Frame ι} (hv : s.violated = none)
    (hi : s.threads[i]? = some (f :: fr ++ st))
    (hfr : ∀ g ∈ f :: fr, s.Cancelling g) :
    ∃ s' fr', step cls s (i, .advance false) = some s' ∧
      DrainStep cls s i (f :: fr) st s' fr' := by
  have hstep : ∀ {s'}, advance cls s i false (f :: fr ++ st) = some s' →
      step cls s (i, .advance false) = some s' := by
    intro s' hadv
    simp [step, hv, hi, ← hadv]
  obtain ⟨hf, hrest⟩ := List.forall_mem_cons.mp hfr
  cases f with
  | runWrapper a ab =>
      cases (hf : ab = true)
      have hrun := runnable_of_wrapper h hp hn (onStack_top hi)
      refine ⟨_, .completeTaskDeps a true :: fr, hstep rfl, ?_⟩
      rw [stepRunWrapper, if_pos hrun]
      exact drainStep_runWrapper hv hrest
  | completeTaskDeps a ab =>
      obtain ⟨hab, hcont⟩ := (hf : ab = true ∧ _)
      subst hab
      refine ⟨_, .decrementAll (s.task a).dependents true :: fr, hstep rfl, ?_⟩
      rw [stepCompleteTaskDeps, hcont]
      exact drainStep_completeTaskDeps h hi hv hrest
  | decrementAll tmp ab =>
      cases (hf : ab = true)
      cases tmp with
      | nil => exact ⟨_, _, hstep rfl, drainStep_released hv hrest⟩
      | cons r rest =>
          cases hrel : releasedState (s.task r).state
              ((s.task r).numPredecessors - 1) with
          | none =>
              refine ⟨_, .decrementAll rest true :: fr, hstep rfl, ?_⟩
              simp only [stepDecrementAll, hrel]
              exact drainStep_signal hv hrest
          | some q =>
              refine ⟨_, .runWrapper r true :: .decrementAll rest true :: fr,
                hstep rfl, ?_⟩
              simp only [stepDecrementAll, hrel]
              exact drainStep_release hv hrest hrel
  | _ => exact False.elim hf

/-- A cancelling thread's steps lead to the end of its cancelling, or to a
    release of a `RemoteTask`. -/
theorem drain_run : ∀ (w : Nat) {s : State ι} (fr : List (Frame ι)),
    drainWork s fr < w → Inv s → Places cls s → NoRemoteCancel cls s →
    s.violated = none → s.threads[i]? = some (fr ++ st) →
    (∀ f ∈ fr, s.Cancelling f) →
    ∃ n t, RunOf (abortSystem cls) s (steps i n) t ∧
      (Drained s t i st ∨ cancelsRemote cls t i = true) := by
  intro w
  induction w with
  | zero => intro s fr hw; exact absurd hw (Nat.not_lt_zero _)
  | succ w ih =>
      intro s fr hw h hp hn hv hi hfr
      cases fr with
      | nil =>
          exact ⟨0, s, RunOf.nil s, Or.inl ⟨(set_self hi).symm, rfl, rfl, rfl,
            hv, fun _ => rfl, fun _ => le_refl _, fun _ h => h⟩⟩
      | cons f fr =>
          cases hbad : cancelsRemote cls s i with
          | true => exact ⟨0, s, RunOf.nil s, Or.inr hbad⟩
          | false =>
              obtain ⟨s', fr', hstep, hd⟩ := drain_step h hp hn hv hi hfr
              have hm := move_of_step hstep
              have hi' : s'.threads[i]? = some (fr' ++ st) := by
                rw [hd.drained.threads]
                obtain ⟨hlt, -⟩ := List.getElem?_eq_some_iff.mp hi
                exact List.getElem?_set_self hlt
              obtain ⟨n, t, hrun, hend⟩ := ih fr'
                (by have := hd.work; omega) (h.move hm) (hp.move h hm)
                (hn.move h hp hbad hm) hd.drained.violated hi' hd.cancelling
              have hnext : (abortSystem cls).next s (i, .advance false)
                  = some s' := by
                show (if _ then _ else _) = some s'
                rw [if_pos hbad]; exact hstep
              exact ⟨n + 1, t, RunOf.cons hnext hrun,
                hend.imp_left (Drained.trans hd.drained)⟩

end Drain

/-! ## Aborting drains -/

section Abort

variable [Fintype ι] {s t : State ι} {i : Nat} {st : List (Frame ι)}

/-- What cancelling `a` has done when the thread is back where it was: `a` is
    complete, every dependent taken off a list was signalled once, and no task
    that was waiting is left half-way. -/
structure Cancelled (s t : State ι) (i : Nat) (a : ι) (st : List (Frame ι)) :
    Prop where
  back : t.threads = s.threads.set i st
  complete : (t.task a).state = .complete ∧ (t.task a).dependents = []
  signalled : ∀ b, t.log.count (.signalled b) + listed t.task b
    = s.log.count (.signalled b) + listed s.task b
  transitively : ∀ b, s.phase b = .pending →
    t.phase b = .pending ∨
      (t.task b).state = .complete ∧ (t.task b).dependents = []

/-- What was past waiting, or waited, before a drain and is active nowhere
    after it has completed. -/
theorem complete_of_drained (ht : Inv t) (hd : Drained s t i st)
    {b : ι} (hold : s.phase b = .pending ∨ s.phase b = .ready)
    (hpend : t.phase b ≠ .pending) (hact : t.active b = 0) :
    (t.task b).state = .complete ∧ (t.task b).dependents = [] := by
  have hrank := hd.rank b
  have hready := ht.active b
  rw [hact] at hready
  have hdone : t.phase b = .done := by
    cases hph : t.phase b with
    | done => rfl
    | pending => exact absurd hph hpend
    | ready => rw [hph] at hready; cases hready
    | new =>
        rw [hph] at hrank
        rcases hold with h1 | h1 <;> rw [h1] at hrank <;>
          exact absurd hrank (by decide)
  refine ⟨?_, ht.done b hdone⟩
  have hnc : (t.task b).state ≠ .continued := by
    intro hc
    have hs := hd.continued b hc
    rcases hold with h1 | h1 <;> rw [State.phase, hs] at h1 <;> cases h1
  unfold State.phase at hdone
  revert hdone hnc
  cases (t.task b).state <;> decide

theorem cancelled_of_drained (h : Inv s) (ht : Inv t) {a : ι}
    (hi : s.threads[i]? = some (.runWrapper a true :: st))
    (hd : Drained s t i st) : Cancelled s t i a st := by
  have hready := h.ready_of_frame (a := a) (onStack_top hi)
    (by simp [Frame.active])
  have hact : ∀ b, t.active b + (if a = b then 1 else 0) = s.active b := by
    intro b
    have hpop := total_pop (Frame.active b) hi
    simp only [Frame.active] at hpop
    unfold State.active State.queued
    rw [hd.threads, hd.queue, hd.remoteOut, hd.gpuQueue]
    omega
  refine ⟨hd.threads, ?_, fun b => ?_, fun b hb => ?_⟩
  · have ha := hact a
    have hs := h.active a
    rw [hready, ready01_eqs.2.2.1] at hs
    rw [if_pos rfl] at ha
    have hzero : t.active a = 0 := by omega
    refine complete_of_drained ht hd (Or.inr hready) (fun hp => ?_) hzero
    have hrank := hd.rank a
    rw [hready, hp] at hrank
    exact absurd hrank (by decide)
  · have hpop := total_pop (Frame.tokens b) hi
    have h1 := h.tokens b
    have h2 := ht.tokens b
    have h3 := h.account b
    have h4 := ht.account b
    unfold State.tokens at h1 h2
    rw [hd.threads] at h2
    rw [hd.registered b] at h4
    simp only [Frame.tokens] at hpop
    omega
  · by_cases hp : t.phase b = .pending
    · exact Or.inl hp
    · refine Or.inr (complete_of_drained ht hd (Or.inl hb) hp ?_)
      have hb' := hact b
      have hs := h.active b
      rw [hb, ready01_eqs.2.1] at hs
      omega

theorem inv_of_run {as : List (Nat × Act ι)}
    (hr : RunOf (abortSystem cls) s as t) (h : Inv s) : Inv t :=
  hr.invariant Inv
    (fun _ _ _ hs hn => hs.move (move_of_step (restrict_next hn).2)) h

/-- What an abort promises, as a property of one state. -/
structure AbortSafe (cls : ι → TaskClass) (s : State ι) : Prop where
  /-- What stands before `runWrapper` meets its assertion. -/
  runnable : ∀ a ab, OnStack (.runWrapper a ab) s.threads →
    runnable (cls a) (s.task a) = true
  /-- The assertion has not failed. -/
  assertion : ∀ a ab, s.violated ≠ some (.runWrapperState a ab)
  /-- A thread that cancels a task is done with it after some steps of its own,
      or comes to a release that the condition excludes. -/
  drains : ∀ i a st, s.violated = none →
    s.threads[i]? = some (.runWrapper a true :: st) →
    ∃ n t, RunOf (abortSystem cls) s (steps i n) t ∧
      (Cancelled s t i a st ∨ cancelsRemote cls t i = true)

/-- **ABORT**: in runs that never cancel a waiting `RemoteTask`. -/
theorem abort_safe (h : Reachable (abortSystem cls) s) : AbortSafe cls s := by
  obtain ⟨hinv, hplaces, hcancel⟩ := noRemoteCancel_of_reachable h
  constructor
  case runnable =>
      exact fun a ab ha => runnable_of_wrapper hinv hplaces hcancel ha
  case assertion => exact hcancel.violated
  case drains =>
      intro i a st hv hi
      obtain ⟨n, t, hrun, hend⟩ := drain_run _ [.runWrapper a true]
        (Nat.lt_succ_self _) hinv hplaces hcancel hv hi (by
          intro f hf
          cases List.mem_singleton.mp hf
          rfl)
      exact ⟨n, t, hrun, hend.imp_left
        (cancelled_of_drained hinv (inv_of_run hrun hinv) hi)⟩

omit [Fintype ι] in
/-- The condition is exact: the release it excludes leads to the failed
    assertion. -/
theorem violated_of_cancelsRemote (hv : s.violated = none)
    (hbad : cancelsRemote cls s i = true) :
    ∃ r, (exec (system cls) s (steps i 2)).map State.violated
      = some (some (.runWrapperState r true)) := by
  unfold cancelsRemote at hbad
  cases hi : s.threads[i]? with
  | none => rw [hi] at hbad; exact nomatch hbad
  | some stack =>
      rw [hi] at hbad
      match stack, hbad with
      | .decrementAll (r :: rest) true :: st, hbad =>
          simp only [Bool.and_eq_true, beq_iff_eq] at hbad
          obtain ⟨⟨hc, hst⟩, hnum⟩ := hbad
          obtain ⟨hlt, -⟩ := List.getElem?_eq_some_iff.mp hi
          have hrel : releasedState (s.task r).state
              ((s.task r).numPredecessors - 1) = some .remoteReady := by
            rw [hst, hnum]; rfl
          have h1 : step cls s (i, .advance false)
              = some (stepDecrementAll s i (r :: rest) true st) := by
            simp [step, hv, hi, advance]
          simp only [stepDecrementAll, hrel, if_true] at h1
          refine ⟨r, ?_⟩
          rw [show exec (system cls) s (steps i 2)
            = (step cls s (i, .advance false)).bind (fun t =>
                exec (system cls) t (steps i 1)) from rfl, h1]
          simp [exec, steps, step, system, hv, hlt, advance, stepRunWrapper,
            runnable, hc, TaskClass.type]

end Abort

/-- Task 1 waits for task 0, which waits in the queue; thread 0 takes task 0
    to cancel it. -/
def abortRun : List (Nat × Act (Fin 2)) :=
  [(0, .callDependsOn 1 0)] ++ steps 0 1 ++ [(0, .callEnqueue 0)] ++
    steps 0 2 ++ [(0, .callEnqueue 1)] ++ steps 0 1 ++ [(0, .pop 0 true)]

/-- With plain tasks that abort goes through. -/
theorem abort_safe_plain :
    ∃ s, Reachable (abortSystem fun _ => .dynamicTask) s ∧
      AbortSafe (fun _ => .dynamicTask) s ∧
      s.threads = [[.runWrapper 0 true], []] ∧
      (s.task 0).dependents = [(1 : Fin 2)] := by
  obtain ⟨s, hs, hv⟩ := exists_of_exec_map
    (abortSystem fun _ => TaskClass.dynamicTask)
    (fun s : State (Fin 2) => (s.threads, (s.task 0).dependents))
    ([[.runWrapper 0 true], []], [1]) abortRun (idle_initial _) rfl
  rw [Prod.mk.injEq] at hv
  exact ⟨s, hs, abort_safe hs, hv⟩

/-- A plain task 0 and a `RemoteTask` 1. -/
def mixed : Fin 2 → TaskClass
  | 0 => .dynamicTask
  | 1 => .remoteTask

/-- With a `RemoteTask` waiting, the assertion of `runWrapper` fails. -/
theorem abort_violates :
    ¬ ∀ s : State (Fin 2), Reachable (system mixed) s →
      ∀ a, s.violated ≠ some (.runWrapperState a true) := by
  intro hclaim
  obtain ⟨s, hs, hv⟩ := exists_of_exec_map (system mixed)
    (fun s : State (Fin 2) => s.violated) (some (.runWrapperState 1 true))
    (abortRun ++ steps 0 4) (idle_initial _) rfl
  exact hclaim s hs 1 hv

end PbDynamicTask
