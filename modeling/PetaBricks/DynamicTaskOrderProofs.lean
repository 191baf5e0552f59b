import Mathlib.Logic.Relation
import Mathlib.Algebra.Order.BigOperators.Group.Finset
import PetaBricks.DynamicTaskProofs

/-! # DynamicTask order — no task before its predecessors

    A task with a continuation completes when the whole chain of continuations
    has (`Completed`).  While `b` has not completed, whoever depends on `b` is
    held somewhere along `b`'s chain: in a `dependents` list, in a `dependsOn`
    call that is still following the chain, or in the hands of the thread that
    moves the list to the continuation (`Holds`).  Either way it has a token or
    is not enqueued, so it cannot have started. -/

namespace PbDynamicTask

open PbTransition PbCallStack Relation

variable {ι : Type} [DecidableEq ι] {cls : ι → TaskClass}

/-- `b` returned `c` as its continuation and is done with it. -/
def State.ContinuesTo (s : State ι) (b c : ι) : Prop :=
  (s.task b).state = .continued ∧ (s.task b).continuation = some c

/-- `c` is `b` or a later task of `b`'s chain of continuations. -/
def State.Chain (s : State ι) : ι → ι → Prop := ReflTransGen s.ContinuesTo

/-- `b` and its whole chain of continuations have completed. -/
def State.Completed (s : State ι) (b : ι) : Prop :=
  ∃ c, s.Chain b c ∧ (s.task c).state = .complete

/-- `a` waits for `c` itself. -/
def State.Holds (s : State ι) (a c : ι) : Prop :=
  a ∈ (s.task c).dependents ∨ OnStack (.dependsOn a c) s.threads ∨
    ∃ tmp, OnStack (.handDown c tmp) s.threads ∧ a ∈ tmp

omit [DecidableEq ι] in
theorem continuesTo_rightUnique (s : State ι) :
    Relator.RightUnique s.ContinuesTo := by
  rintro b c d ⟨-, hc⟩ ⟨-, hd⟩
  exact Option.some.inj (hc.symm.trans hd)

attribute [local simp] State.setTask State.setStack State.note State.seal
  State.fail update_state update_numPredecessors update_dependents
  update_continuation keep_state keep_numPredecessors keep_dependents
  keep_continuation

section Moves

variable [Fintype ι] {s s' : State ι} {i : Nat}

/-- A finished task keeps its final state and its continuation. -/
theorem done_stable (h : Inv s) (hm : Move cls s i s') {x : ι}
    (hx : s.phase x = .done) :
    (s'.task x).state = (s.task x).state ∧
      (s'.task x).continuation = (s.task x).continuation := by
  have hne : ∀ {a : ι}, s.phase a ≠ .done → x ≠ a := by
    rintro a ha rfl; exact ha hx
  cases hm with
  | fail _ _ | callDependsOn _ _ | callEnqueue _ _ | onComplete _ _ | pop _ _
  | gpuRunWrapper _ _ | gpuSkip _ _ | gpuRun _ _ | gpuNotDone _ | gpuRet _
  | redirect _ _ _ | dependsOnNull _ _ _ | alreadyComplete _ _
  | inlined _ _ _ | run _ | pushLocal _ _ _ | enqueueRemote _ _ _
  | addTask _ _ _ | released _ => exact ⟨rfl, rfl⟩
  | register _ _ _ _ | handDown _ | signal _ _ => simp
  | @recvInitial st a hi hs hc hn =>
      have hxa := hne (a := a) (by
        rw [h.unsealed a (sealed_of_canSeal hs)]; decide)
      simp [hxa]
  | @retNone st a hi | @retSome st a c hi hs | @cancel st a hi
  | @continued st a c ab hi hc | @complete st a ab hi hc =>
      have hxa := hne (a := a) (by
        rw [h.ready_of_frame (a := a) (onStack_top hi) (by simp [Frame.active])]
        decide)
      simp [hxa]
  | @enqueueReady st a q hi hq hn =>
      have hxa := hne (a := a) (by
        rw [State.phase, (new_to_ready hq).1]; decide)
      simp [hxa]
  | @enqueuePending st a q hi hq hn =>
      have hxa := hne (a := a) (by
        rw [State.phase, (new_to_pending hq).1]; decide)
      simp [hxa]
  | @enqueueLocal st a hi hq hc =>
      have hxa := hne (a := a) (by rw [State.phase, hq]; decide)
      simp [hxa]
  | @release st r rest q hi hq hn | @releaseCancel st r rest q hi hq hn =>
      have hxa := hne (a := r) (by
        rw [State.phase, (pending_to_ready hq).1]; decide)
      simp [hxa]

theorem continuesTo_move (h : Inv s) (hm : Move cls s i s') {b c : ι}
    (hbc : s.ContinuesTo b c) : s'.ContinuesTo b c := by
  obtain ⟨hst, hcont⟩ := hbc
  obtain ⟨h1, h2⟩ := done_stable h hm (x := b) (by rw [State.phase, hst]; rfl)
  exact ⟨h1.trans hst, h2.trans hcont⟩

theorem chain_move (h : Inv s) (hm : Move cls s i s') {b c : ι}
    (hbc : s.Chain b c) : s'.Chain b c :=
  ReflTransGen.mono (fun _ _ hxy => continuesTo_move h hm hxy) _ _ hbc

theorem completed_move (h : Inv s) (hm : Move cls s i s') {b : ι}
    (hb : s.Completed b) : s'.Completed b := by
  obtain ⟨c, hbc, hc⟩ := hb
  obtain ⟨h1, -⟩ := done_stable h hm (x := c) (by rw [State.phase, hc]; rfl)
  exact ⟨c, chain_move h hm hbc, h1.trans hc⟩

/-- Who waits for `c` still does, or waits for `c`'s continuation, or `c` is
    complete. -/
theorem holds_move (h : Inv s) (hm : Move cls s i s') {a c : ι}
    (hac : s.Holds a c) :
    s'.Holds a c ∨ (∃ d, s'.ContinuesTo c d ∧ s'.Holds a d) ∨
      (s'.task c).state = .complete := by
  unfold State.Holds at hac
  cases hm with
  | fail _ _ | gpuNotDone _ => exact Or.inl hac
  | callDependsOn hi _ | callEnqueue hi _ | recvInitial hi _ _ _
  | onComplete hi _ | pop hi _ | gpuRunWrapper hi _ | gpuSkip hi _
  | gpuRun hi _ =>
      refine Or.inl (hac.imp ?_ (Or.imp ?_ ?_))
      · intro hdep; simpa using hdep
      · intro hon; simp [onStack_push hi, set_self hi, hon]
      · rintro ⟨tmp, hon, hmem⟩
        exact ⟨tmp, by simp [onStack_push hi, set_self hi, hon], hmem⟩
  | retNone hi | retSome hi _ | gpuRet hi | enqueueReady hi _ _
  | enqueuePending hi _ _ | inlined hi _ _ | pushLocal hi _ _
  | enqueueLocal hi _ _ | enqueueRemote hi _ _ | addTask hi _ _ | run hi
  | cancel hi | released hi | signal hi _ | release hi _ _
  | releaseCancel hi _ _ =>
      refine Or.inl ?_
      simpa [State.Holds, onStack_pop hi, onStack_push hi] using hac
  | @redirect st a₀ b c₀ hi hb hc =>
      rcases hac with hdep | hon | ⟨tmp, hon, hmem⟩
      · exact Or.inl (Or.inl hdep)
      · rcases (onStack_pop hi).mp hon with heq | hrest
        · cases heq
          exact Or.inr (Or.inl ⟨c₀, ⟨hb, hc⟩,
            Or.inr (Or.inl ((onStack_push hi).mpr (Or.inl rfl)))⟩)
        · exact Or.inl (Or.inr (Or.inl ((onStack_push hi).mpr (Or.inr hrest))))
      · refine Or.inl (Or.inr (Or.inr ⟨tmp, ?_, hmem⟩))
        simpa [onStack_pop hi, onStack_push hi] using hon
  | @dependsOnNull st a₀ b hi hb hc =>
      exact absurd hc (h.continued b hb)
  | @alreadyComplete st a₀ b hi hb =>
      rcases hac with hdep | hon | ⟨tmp, hon, hmem⟩
      · exact Or.inl (Or.inl hdep)
      · rcases (onStack_pop hi).mp hon with heq | hrest
        · cases heq; exact Or.inr (Or.inr hb)
        · exact Or.inl (Or.inr (Or.inl hrest))
      · refine Or.inl (Or.inr (Or.inr ⟨tmp, ?_, hmem⟩))
        simpa [onStack_pop hi] using hon
  | @register st a₀ b hi hab ha hb =>
      rcases hac with hdep | hon | ⟨tmp, hon, hmem⟩
      · refine Or.inl (Or.inl ?_)
        by_cases hcb : c = b
        · subst hcb; simp [hab, hdep]
        · simpa [hcb] using hdep
      · rcases (onStack_pop hi).mp hon with heq | hrest
        · cases heq
          exact Or.inl (Or.inl (by simp [hab]))
        · exact Or.inl (Or.inr (Or.inl hrest))
      · refine Or.inl (Or.inr (Or.inr ⟨tmp, ?_, hmem⟩))
        simpa [onStack_pop hi] using hon
  | @continued st a₀ c₀ ab hi hcont =>
      rcases hac with hdep | hon | ⟨tmp, hon, hmem⟩
      · by_cases hca : c = a₀
        · subst hca
          exact Or.inr (Or.inl ⟨c₀, ⟨by simp, by simpa using hcont⟩,
            Or.inr (Or.inr ⟨_, (onStack_push hi).mpr (Or.inl rfl), hdep⟩)⟩)
        · exact Or.inl (Or.inl (by simpa [hca] using hdep))
      · refine Or.inl (Or.inr (Or.inl ?_))
        simpa [onStack_pop hi, onStack_push hi] using hon
      · refine Or.inl (Or.inr (Or.inr ⟨tmp, ?_, hmem⟩))
        have hrest : OnStack (.handDown c tmp) (s.threads.set i st) := by
          simpa [onStack_pop hi] using hon
        exact (onStack_push hi).mpr (Or.inr hrest)
  | @complete st a₀ ab hi hcont =>
      by_cases hca : c = a₀
      · exact Or.inr (Or.inr (by simp [hca]))
      · refine Or.inl ?_
        simpa [State.Holds, onStack_pop hi, onStack_push hi, hca] using hac
  | @handDown st c₀ tmp₀ hi =>
      refine Or.inl ?_
      rcases hac with hdep | hon | ⟨tmp, hon, hmem⟩
      · refine Or.inl ?_
        by_cases hcc : c = c₀
        · subst hcc; simp [hdep]
        · simpa [hcc] using hdep
      · refine Or.inr (Or.inl ?_)
        simpa [onStack_pop hi, onStack_push hi] using hon
      · rcases (onStack_pop hi).mp hon with heq | hrest
        · cases heq; exact Or.inl (by simp [hmem])
        · exact Or.inr (Or.inr ⟨tmp, (onStack_push hi).mpr (Or.inr hrest),
            hmem⟩)

omit [Fintype ι] in
/-- Who waits for `c` waited before, for `c` or a task that continued to `c`,
    or has just called `dependsOn`. -/
theorem holds_of_move (hm : Move cls s i s') {a c : ι} (hac : s'.Holds a c) :
    s.Holds a c ∨ (∃ b, s'.ContinuesTo b c ∧ s.Holds a b) ∨
      .dependsOn a c ∈ s'.log := by
  unfold State.Holds at hac
  cases hm with
  | fail _ _ | gpuNotDone _ => exact Or.inl hac
  | @callDependsOn st a₀ b hi hs =>
      rcases hac with hdep | hon | ⟨tmp, hon, hmem⟩
      · exact Or.inl (Or.inl hdep)
      · rcases (onStack_push hi).mp hon with heq | hrest
        · cases heq; exact Or.inr (Or.inr (by simp))
        · rw [set_self hi] at hrest
          exact Or.inl (Or.inr (Or.inl hrest))
      · refine Or.inl (Or.inr (Or.inr ⟨tmp, ?_, hmem⟩))
        simpa [onStack_push hi, set_self hi] using hon
  | callEnqueue hi _ | recvInitial hi _ _ _
  | onComplete hi _ | pop hi _ | gpuRunWrapper hi _ | gpuSkip hi _
  | gpuRun hi _ =>
      refine Or.inl ?_
      simpa [State.Holds, onStack_push hi, set_self hi] using hac
  | retNone hi | retSome hi _ | gpuRet hi | enqueueReady hi _ _
  | enqueuePending hi _ _ | inlined hi _ _ | pushLocal hi _ _
  | enqueueLocal hi _ _ | enqueueRemote hi _ _ | addTask hi _ _ | run hi
  | cancel hi | released hi | signal hi _ | release hi _ _
  | releaseCancel hi _ _ =>
      refine Or.inl ?_
      simpa [State.Holds, onStack_pop hi, onStack_push hi] using hac
  | @redirect st a₀ b c₀ hi hb hc =>
      rcases hac with hdep | hon | ⟨tmp, hon, hmem⟩
      · exact Or.inl (Or.inl hdep)
      · rcases (onStack_push hi).mp hon with heq | hrest
        · cases heq
          exact Or.inr (Or.inl ⟨b, ⟨hb, hc⟩,
            Or.inr (Or.inl ((onStack_pop hi).mpr (Or.inl rfl)))⟩)
        · exact Or.inl (Or.inr (Or.inl ((onStack_pop hi).mpr (Or.inr hrest))))
      · refine Or.inl (Or.inr (Or.inr ⟨tmp, ?_, hmem⟩))
        simpa [onStack_pop hi, onStack_push hi] using hon
  | dependsOnNull hi _ _ | alreadyComplete hi _ =>
      refine Or.inl (hac.imp id (Or.imp ?_ ?_))
      · exact fun hon => (onStack_pop hi).mpr (Or.inr hon)
      · exact fun ⟨tmp, hon, hmem⟩ =>
          ⟨tmp, (onStack_pop hi).mpr (Or.inr hon), hmem⟩
  | @register st a₀ b hi hab ha hb =>
      rcases hac with hdep | hon | ⟨tmp, hon, hmem⟩
      · by_cases hcb : c = b
        · subst hcb
          have hdep' : a ∈ (s.task c).dependents ∨ a = a₀ := by
            simpa [hab] using hdep
          rcases hdep' with hold | rfl
          · exact Or.inl (Or.inl hold)
          · exact Or.inl (Or.inr (Or.inl ((onStack_pop hi).mpr (Or.inl rfl))))
        · exact Or.inl (Or.inl (by simpa [hcb] using hdep))
      · exact Or.inl (Or.inr (Or.inl ((onStack_pop hi).mpr (Or.inr hon))))
      · exact Or.inl (Or.inr (Or.inr
          ⟨tmp, (onStack_pop hi).mpr (Or.inr hon), hmem⟩))
  | @continued st a₀ c₀ ab hi hcont =>
      rcases hac with hdep | hon | ⟨tmp, hon, hmem⟩
      · by_cases hca : c = a₀
        · subst hca; simp at hdep
        · exact Or.inl (Or.inl (by simpa [hca] using hdep))
      · refine Or.inl (Or.inr (Or.inl ?_))
        simpa [onStack_pop hi, onStack_push hi] using hon
      · rcases (onStack_push hi).mp hon with heq | hrest
        · cases heq
          exact Or.inr (Or.inl ⟨a₀, ⟨by simp, by simpa using hcont⟩,
            Or.inl hmem⟩)
        · exact Or.inl (Or.inr (Or.inr
            ⟨tmp, (onStack_pop hi).mpr (Or.inr hrest), hmem⟩))
  | @complete st a₀ ab hi hcont =>
      refine Or.inl ?_
      by_cases hca : c = a₀
      · subst hca
        refine Or.inr ?_
        simpa [onStack_pop hi, onStack_push hi] using hac
      · simpa [State.Holds, onStack_pop hi, onStack_push hi, hca] using hac
  | @handDown st c₀ tmp₀ hi =>
      refine Or.inl ?_
      rcases hac with hdep | hon | ⟨tmp, hon, hmem⟩
      · by_cases hcc : c = c₀
        · subst hcc
          have hdep' : a ∈ (s.task c).dependents ∨ a ∈ tmp₀ := by
            simpa using hdep
          rcases hdep' with hold | hnew
          · exact Or.inl hold
          · exact Or.inr (Or.inr ⟨tmp₀, (onStack_pop hi).mpr (Or.inl rfl),
              hnew⟩)
        · exact Or.inl (by simpa [hcc] using hdep)
      · refine Or.inr (Or.inl ?_)
        simpa [onStack_pop hi, onStack_push hi] using hon
      · refine Or.inr (Or.inr ⟨tmp, (onStack_pop hi).mpr (Or.inr ?_), hmem⟩)
        simpa [onStack_push hi] using hon

omit [Fintype ι] in
/-- Nothing is removed from the log, and `dependsOn` enters it when called. -/
theorem dependsOn_log_move (hm : Move cls s i s') {a b : ι}
    (hab : .dependsOn a b ∈ s'.log) :
    .dependsOn a b ∈ s.log ∨ OnStack (.dependsOn a b) s'.threads := by
  cases hm with
  | @callDependsOn st a₀ b₀ hi hs =>
      rcases List.mem_cons.mp hab with heq | hold
      · cases heq
        exact Or.inr ((onStack_push hi).mpr (Or.inl rfl))
      · exact Or.inl hold
  | _ => exact Or.inl (by simpa using hab)

/-- The order invariant: whoever called `dependsOn` on an uncompleted task is
    held along its chain, and nobody else is. -/
structure Order (s : State ι) : Prop where
  held : ∀ a b, .dependsOn a b ∈ s.log →
    s.Completed b ∨ ∃ c, s.Chain b c ∧ s.Holds a c
  asked : ∀ a c, s.Holds a c → ∃ b, .dependsOn a b ∈ s.log ∧ s.Chain b c

/-- Waiting along `b`'s chain goes on, or `b` has completed. -/
theorem held_move (h : Inv s) (hm : Move cls s i s') {a b : ι}
    (hb : s.Completed b ∨ ∃ c, s.Chain b c ∧ s.Holds a c) :
    s'.Completed b ∨ ∃ c, s'.Chain b c ∧ s'.Holds a c := by
  rcases hb with hb | ⟨c, hbc, hac⟩
  · exact Or.inl (completed_move h hm hb)
  · have hbc' := chain_move h hm hbc
    rcases holds_move h hm hac with h1 | ⟨d, hcd, had⟩ | hc
    · exact Or.inr ⟨c, hbc', h1⟩
    · exact Or.inr ⟨d, hbc'.tail hcd, had⟩
    · exact Or.inl ⟨c, hbc', hc⟩

theorem Order.move (h : Inv s) (ho : Order s) (hm : Move cls s i s') :
    Order s' := by
  constructor
  case held =>
      intro a b hab
      rcases dependsOn_log_move hm hab with hold | hon
      · exact held_move h hm (ho.held a b hold)
      · exact Or.inr ⟨b, ReflTransGen.refl, Or.inr (Or.inl hon)⟩
  case asked =>
      intro a c hac
      rcases holds_of_move hm hac with hold | ⟨d, hdc, had⟩ | hlog
      · obtain ⟨b, hb, hbc⟩ := ho.asked a c hold
        exact ⟨b, log_mono hm hb, chain_move h hm hbc⟩
      · obtain ⟨b, hb, hbd⟩ := ho.asked a d had
        exact ⟨b, log_mono hm hb, (chain_move h hm hbd).tail hdc⟩
      · exact ⟨c, hlog, ReflTransGen.refl⟩

omit [Fintype ι] [DecidableEq ι] in
theorem Order.initial (h : Initial cls s) : Order s := by
  obtain ⟨htask, hidle, -, -, -, -, hlog, -⟩ := h
  constructor
  case held => intro a b hab; rw [hlog] at hab; exact nomatch hab
  case asked =>
      rintro a c (hdep | ⟨st, hst, hf⟩ | ⟨tmp, ⟨st, hst, hf⟩, -⟩)
      · rw [htask c] at hdep; exact nomatch hdep
      · rw [hidle st hst] at hf; exact nomatch hf
      · rw [hidle st hst] at hf; exact nomatch hf

theorem order_of_reachable (h : Reachable (system cls) s) : Order s :=
  (Reachable.invariant (fun s => Inv s ∧ Order s) h
    (fun _ hs => ⟨Inv.initial hs, Order.initial hs⟩)
    (fun _ _ _ hs hn =>
      have hm := move_of_step hn
      ⟨hs.1.move hm, hs.2.move hs.1 hm⟩)).2

end Moves

/-! ## What the order means for a task -/

section Safety

variable [Fintype ι] {s : State ι}

/-- Signals for `a` that a thread has taken and not delivered yet. -/
def Frame.signalling (a : ι) : Frame ι → Nat
  | .decrementAll tmp _ => tmp.count a
  | _ => 0

theorem listed_of_mem {f : ι → Task ι} {a c : ι}
    (h : a ∈ (f c).dependents) : 0 < listed f a :=
  calc 0 < (f c).dependents.count a := List.count_pos_iff.mpr h
    _ ≤ listed f a :=
        Finset.single_le_sum (f := fun c => (f c).dependents.count a)
          (fun _ _ => Nat.zero_le _) (Finset.mem_univ c)

theorem exists_of_listed {f : ι → Task ι} {a : ι} (h : 0 < listed f a) :
    ∃ c, a ∈ (f c).dependents := by
  obtain ⟨c, -, hc⟩ := Finset.exists_ne_zero_of_sum_ne_zero (Nat.ne_of_gt h)
  exact ⟨c, List.count_pos_iff.mp (Nat.pos_of_ne_zero hc)⟩

/-- A held task that is sealed has a token. -/
theorem tokens_of_holds (h : Inv s) {a c : ι} (hac : s.Holds a c)
    (hsl : s.sealed a = true) : 0 < s.tokens a := by
  unfold State.tokens
  rcases hac with hdep | hon | ⟨tmp, hon, hmem⟩
  · have := listed_of_mem hdep
    omega
  · have hle := le_total (w := Frame.registering a) hon
    rw [h.registering a hsl] at hle
    simp [Frame.registering] at hle
  · have hle := le_total (w := Frame.tokens a) hon
    have hpos := List.count_pos_iff.mpr hmem
    simp only [Frame.tokens] at hle
    omega

theorem Inv.sealed_of_phase (h : Inv s) {a : ι} (ha : s.phase a ≠ .new) :
    s.sealed a = true := by
  by_contra hns
  exact ha (h.unsealed a (Bool.eq_false_iff.mpr hns))

/-- **ORDER**: when a task has reached the ready phase, all it depends on has
    completed. -/
theorem completed_of_reached (h : Inv s) (ho : Order s) {a b : ι}
    (ha : (s.phase a).reached01 = 1) (hab : .dependsOn a b ∈ s.log) :
    s.Completed b := by
  rcases ho.held a b hab with hb | ⟨c, -, hac⟩
  · exact hb
  · have hsl := h.sealed_of_phase (a := a) (by
      intro hnew; rw [hnew] at ha; exact nomatch ha)
    have hpos := tokens_of_holds h hac hsl
    have hnum := h.tokens a
    rw [h.reached a ha] at hnum
    omega

/-- Nobody waits on a completed chain. -/
theorem not_holds_of_completed (h : Inv s) {a b c : ι} (hbc : s.Chain b c)
    (hb : s.Completed b) (hnew : s.phase c = .new ∨ a ∈ (s.task c).dependents) :
    False := by
  have hdone : s.phase c ≠ .done := by
    intro hdone
    rcases hnew with hn | hdep
    · rw [hn] at hdone; cases hdone
    · rw [h.done c hdone] at hdep; cases hdep
  obtain ⟨e, hbe, he⟩ := hb
  rcases ReflTransGen.total_of_right_unique (continuesTo_rightUnique s)
    hbc hbe with hce | hec
  · rcases ReflTransGen.cases_head hce with rfl | ⟨d, ⟨hst, -⟩, -⟩
    · exact hdone (by rw [State.phase, he]; rfl)
    · exact hdone (by rw [State.phase, hst]; rfl)
  · rcases ReflTransGen.cases_head hec with rfl | ⟨d, ⟨hst, -⟩, -⟩
    · exact hdone (by rw [State.phase, he]; rfl)
    · cases he.symm.trans hst

omit [Fintype ι] in
/-- A token in a thread's hands is being moved or being delivered. -/
theorem tokens_split {f : Frame ι} {a : ι} (hpos : 0 < f.tokens a) :
    (∃ c tmp, f = .handDown c tmp ∧ a ∈ tmp) ∨ 0 < f.signalling a := by
  cases f with
  | handDown c tmp =>
      exact Or.inl ⟨c, tmp, rfl, List.count_pos_iff.mp hpos⟩
  | decrementAll tmp ab => exact Or.inr hpos
  | _ => exact absurd hpos (Nat.lt_irrefl 0)

/-- When everything `a` depends on has completed and all signals to `a` were
    delivered, `a` has no tokens. -/
theorem tokens_zero (h : Inv s) (ho : Order s) {a : ι}
    (hdeps : ∀ b, .dependsOn a b ∈ s.log → s.Completed b)
    (hsig : total (Frame.signalling a) s.threads = 0) : s.tokens a = 0 := by
  by_contra hne
  have hpos : 0 < listed s.task a ∨ 0 < total (Frame.tokens a) s.threads := by
    unfold State.tokens at hne; omega
  rcases hpos with hl | hf
  · obtain ⟨c, hc⟩ := exists_of_listed hl
    obtain ⟨b, hb, hbc⟩ := ho.asked a c (Or.inl hc)
    exact not_holds_of_completed h hbc (hdeps b hb) (Or.inr hc)
  · obtain ⟨f, hon, hft⟩ := exists_of_total_pos hf
    rcases tokens_split hft with ⟨c, tmp, rfl, hmem⟩ | hs
    · obtain ⟨b, hb, hbc⟩ := ho.asked a c (Or.inr (Or.inr ⟨tmp, hon, hmem⟩))
      obtain ⟨-, hnew⟩ := h.sealed_new_of_owner (a := c) hon
        (by simp [Frame.owner])
      exact not_holds_of_completed (a := a) h hbc (hdeps b hb) (Or.inl hnew)
    · have hle := le_total (w := Frame.signalling a) hon
      omega

/-- **HAND-OVER**: an enqueued task whose predecessors have all completed is
    dispatched exactly once, or about to be. -/
theorem dispatched_of_completed (h : Inv s) (ho : Order s) {a : ι}
    (ha : s.phase a ≠ .new)
    (hdeps : ∀ b, .dependsOn a b ∈ s.log → s.Completed b)
    (hsig : total (Frame.signalling a) s.threads = 0) :
    s.dispatched a + total (Frame.dispatching a) s.threads = 1 := by
  rw [h.dispatched a]
  have hnum := h.tokens a
  rw [tokens_zero h ho hdeps hsig] at hnum
  cases hph : s.phase a with
  | new => exact absurd hph ha
  | pending => exact absurd hnum (h.pending a hph)
  | ready => rfl
  | done => rfl

end Safety

end PbDynamicTask
