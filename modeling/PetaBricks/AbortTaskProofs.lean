import Mathlib.Logic.Relation
import PetaBricks.RendezvousProofs

/-! # AbortTask — the rendezvous of all workers

    The pool with its deques and loops does what the rendezvous of bags and stages
    allows: `move_of_step` maps each step of `AbortTask::run`, `popAndRunOneTask`
    and `DynamicScheduler::abort` to one move.  The other half of the file is
    progress: from every state of an abort some run leads to all threads having
    left (`can_finish`). -/

namespace PbAbortTask

open PbTransition PbRendezvous

variable {n : Nat}

/-! ## What the deque operations take and give -/

/-- All that a thread holds, what `popLocal` takes first. -/
def Thread.items (t : Thread n) : List Item := t.ondeck.toList ++ t.deque

/-- The stage a phase belongs to. -/
def Phase.stage : Phase n → Stage
  | .live => .live
  | .entering => .entering
  | .clearing => .clearing
  | .loopHead | .pushing _ | .stealFrom _ _ => .working
  | .draining => .draining
  | .drained => .drained
  | .waiting => .waiting
  | .left => .left

/-- `t'` is `t` without one occurrence of `x`. -/
structure Takes (t : Thread n) (x : Item) (t' : Thread n) : Prop where
  phase : t'.phase = t.phase
  mem : x ∈ t.items
  rest : (t'.items : Multiset Item) = (t.items : Multiset Item).erase x

theorem takes_of_perm {t t' : Thread n} {x : Item} (hp : t'.phase = t.phase)
    (hi : t.items.Perm (x :: t'.items)) : Takes t x t' := by
  refine ⟨hp, hi.mem_iff.mpr List.mem_cons_self, ?_⟩
  rw [show (t.items : Multiset Item) = ↑(x :: t'.items) from
    Multiset.coe_eq_coe.mpr hi, ← Multiset.cons_coe, Multiset.erase_cons_head]

theorem popLocal_takes {t t' : Thread n} {x : Item}
    (h : popLocal t = some (x, t')) : Takes t x t' := by
  obtain ⟨p, ondeck, deque⟩ := t
  cases ondeck with
  | some y =>
      cases h
      exact takes_of_perm rfl (List.Perm.refl _)
  | none =>
      cases deque with
      | nil => exact nomatch h
      | cons y rest =>
          cases h
          exact takes_of_perm rfl (List.Perm.refl _)

theorem items_of_popLocal_none {t : Thread n} (h : popLocal t = none) :
    t.items = [] := by
  obtain ⟨p, ondeck, deque⟩ := t
  cases ondeck with
  | some y => exact nomatch h
  | none =>
      cases deque with
      | nil => rfl
      | cons y rest => exact nomatch h

theorem popBottom_takes {t t' : Thread n} {x : Item}
    (h : popBottom t = some (x, t')) : Takes t x t' := by
  unfold popBottom at h
  cases hl : t.deque.getLast? with
  | none => rw [hl] at h; exact nomatch h
  | some y =>
      rw [hl] at h
      cases h
      refine takes_of_perm rfl ?_
      have hd : t.deque = t.deque.dropLast ++ [x] :=
        (List.dropLast_append_getLast? x hl).symm
      show (t.ondeck.toList ++ t.deque).Perm
        (x :: (t.ondeck.toList ++ t.deque.dropLast))
      rw [hd, List.dropLast_concat, ← List.append_assoc]
      exact List.perm_append_singleton x _

theorem pushLocal_phase (t : Thread n) (x : Item) :
    (pushLocal t x).phase = t.phase := by
  unfold pushLocal
  split <;> rfl

theorem pushLocal_items (t : Thread n) (x : Item) :
    ((pushLocal t x).items : Multiset Item) = x ::ₘ t.items := by
  rw [Multiset.cons_coe]
  refine Multiset.coe_eq_coe.mpr ?_
  obtain ⟨p, ondeck, deque⟩ := t
  cases ondeck with
  | none => exact List.Perm.refl _
  | some y => exact List.Perm.swap x y deque

/-! ## The state as bags and stages -/

/-- What the rendezvous sees of the pool. -/
def State.view (s : State n) : View n where
  stage i := (s.thread i).phase.stage
  held i := (s.thread i).items
  started := s.started
  numLive := s.numLive
  numAborting := s.numAborting
  nextId := s.nextId
  log := s.log
  violated := s.violated

theorem view_setThread (s : State n) (i : Fin n) (t : Thread n) :
    (s.setThread i t).view = { s.view with
      stage := Function.update s.view.stage i t.phase.stage
      held := Function.update s.view.held i t.items } := by
  have hstage : (s.setThread i t).view.stage
      = Function.update s.view.stage i t.phase.stage :=
    Function.comp_update (fun u : Thread n => u.phase.stage) s.thread i t
  have hheld : (s.setThread i t).view.held
      = Function.update s.view.held i t.items :=
    Function.comp_update (fun u : Thread n => (u.items : Multiset Item))
      s.thread i t
  rw [← hstage, ← hheld]
  rfl

/-- A phase written shows as its stage. -/
theorem view_setPhase (s : State n) (i : Fin n) (p : Phase n) :
    (s.setPhase i p).view
      = { s.view with stage := Function.update s.view.stage i p.stage } := by
  rw [State.setPhase, view_setThread]
  rw [show Function.update s.view.held i
    ({ s.thread i with phase := p } : Thread n).items = s.view.held from
    Function.update_eq_self i s.view.held]

/-- A move inside a stage does not show. -/
theorem view_setPhase_same {s : State n} {i : Fin n} {p : Phase n}
    (h : p.stage = (s.thread i).phase.stage) : (s.setPhase i p).view = s.view := by
  rw [view_setPhase, h,
    show Function.update s.view.stage i (s.thread i).phase.stage = s.view.stage
      from Function.update_eq_self i s.view.stage]

/-- An item taken shows as a smaller bag. -/
theorem view_takes {s : State n} {j : Fin n} {x : Item} {t : Thread n}
    (h : Takes (s.thread j) x t) :
    (s.setThread j t).view = { s.view with
      held := Function.update s.view.held j ((s.view.held j).erase x) } := by
  rw [view_setThread, h.rest, h.phase,
    show Function.update s.view.stage j (s.thread j).phase.stage = s.view.stage
      from Function.update_eq_self j s.view.stage]
  rfl

/-! ## Each step is a move -/

section Steps

variable {s s' : State n} {i : Fin n}

theorem mem_held {j : Fin n} {x : Item} {t : Thread n}
    (h : Takes (s.thread j) x t) : x ∈ s.view.held j :=
  Multiset.mem_coe.mpr h.mem

theorem held_eq_zero {j : Fin n} (h : popLocal (s.thread j) = none) :
    s.view.held j = 0 := by
  show ((s.thread j).items : Multiset Item) = 0
  rw [items_of_popLocal_none h]
  rfl

/-- After somebody left there is nothing to run. -/
theorem popsAndRuns_live {j : Fin n} {x : Item} {t : Thread n}
    (h : Inv s.view) (hp : (s.thread i).phase.popsAndRuns = true)
    (ht : Takes (s.thread j) x t) : (s.thread i).phase = .live := by
  cases hi : (s.thread i).phase with
  | live => rfl
  | left =>
      have hz := h.all_empty (i := i)
        (show (s.thread i).phase.stage = .left by rw [hi]; rfl) j
      exact absurd (hz ▸ mem_held ht) (Multiset.notMem_zero x)
  | entering | clearing | loopHead | pushing _ | stealFrom _ _ | draining
  | drained | waiting => rw [hi] at hp; exact nomatch hp

/-- A live thread runs what it got from `j`. -/
theorem move_run {j : Fin n} {x : Item} {t : Thread n}
    (hi : (s.thread i).phase = .live) (ht : Takes (s.thread j) x t) :
    Move s.view ((s.setThread j t).run i x).view := by
  have hstage : s.view.stage i = .live := by
    show (s.thread i).phase.stage = .live
    rw [hi]; rfl
  cases x with
  | task id =>
      show Move s.view { (s.setThread j t).view with
        log := .ran id :: s.view.log }
      rw [view_takes ht]
      exact Move.consume s.view j id (.ran id) (mem_held ht) (Or.inl rfl)
  | abort =>
      show Move s.view { ((s.setThread j t).setPhase i .entering).view with
        log := .entered i :: s.view.log }
      rw [view_setPhase, view_takes ht]
      exact Move.join s.view i j hstage (mem_held ht)

/-- Somebody cancels a task it got from `j`. -/
theorem move_cancel {j : Fin n} {id : Nat} {t : Thread n}
    (ht : Takes (s.thread j) (.task id) t) :
    Move s.view ((s.setThread j t).cancel (.task id)).view := by
  show Move s.view { (s.setThread j t).view with
    log := .cancelled id :: s.view.log }
  rw [view_takes ht]
  exact Move.consume s.view j id (.cancelled id) (mem_held ht) (Or.inr rfl)

/-- A thread that is live or clears holds tasks only. -/
theorem move_cancelOwn {x : Item} {t : Thread n} (h : Inv s.view)
    (hi : (s.thread i).phase = .live ∨ (s.thread i).phase = .clearing)
    (ht : Takes (s.thread i) x t) :
    Move s.view ((s.setThread i t).cancel x).view := by
  cases x with
  | task id => exact move_cancel ht
  | abort =>
      have hno : (s.thread i).phase.stage.MayHold .abort :=
        h.holds i _ (mem_held ht)
      rcases hi with hi | hi <;> rw [hi] at hno <;> exact absurd rfl hno

/-- A phase left for one of another stage. -/
theorem stage_of {p : Phase n} (hi : (s.thread i).phase = p) :
    s.view.stage i = p.stage := congrArg Phase.stage hi

/-- A phase left for one of the same stage. -/
theorem move_within {p q : Phase n} (hi : (s.thread i).phase = p)
    (hq : q.stage = p.stage) : Move s.view (s.setPhase i q).view := by
  rw [view_setPhase_same (by rw [hi]; exact hq)]
  exact Move.stay s.view

theorem move_abort (hst : s.started = false) (hi : (s.thread i).phase = .live) :
    Move s.view { (s.setPhase i .entering).note (.entered i) with
      started := true, numLive := n, numAborting := n : State n }.view := by
  show Move s.view { (s.setPhase i .entering).view with
    started := true, numLive := n, numAborting := n
    log := .entered i :: s.view.log }
  rw [view_setPhase]
  exact Move.abort s.view i hst (stage_of hi)

theorem move_spawn (hi : (s.thread i).phase = .live) :
    Move s.view { s.setThread i (pushLocal (s.thread i) (.task s.nextId)) with
      nextId := s.nextId + 1 : State n }.view := by
  show Move s.view
    { (s.setThread i (pushLocal (s.thread i) (.task s.nextId))).view with
      nextId := s.nextId + 1 }
  rw [view_setThread, pushLocal_phase, pushLocal_items,
    show Function.update s.view.stage i (s.thread i).phase.stage = s.view.stage
      from Function.update_eq_self i s.view.stage]
  exact Move.spawn s.view i (stage_of hi)

theorem move_push {k : Nat} (hi : (s.thread i).phase = .pushing (k + 1)) :
    Move s.view (s.setThread i
      { pushLocal (s.thread i) .abort with phase := .pushing k }).view := by
  have hstage : s.view.stage i = .working := stage_of hi
  rw [view_setThread,
    show ((⟨.pushing k, (pushLocal (s.thread i) .abort).ondeck,
      (pushLocal (s.thread i) .abort).deque⟩ : Thread n).items : Multiset Item)
      = .abort ::ₘ (s.thread i).items from pushLocal_items (s.thread i) .abort,
    show (Phase.pushing k : Phase n).stage = s.view.stage i from hstage.symm,
    Function.update_eq_self]
  exact Move.push s.view i hstage

/-- One turn of the loop that steals all the victim's work. -/
theorem move_stealOne {v : Fin n} {c : Nat}
    {got : Option (Item × Thread n)}
    (hs : (match got with
      | some (.task id, t) =>
          some (((s.setThread v t).setPhase i (.stealFrom v c)).cancel
            (.task id))
      | some (.abort, t) => some ((s.setThread v t).setPhase i .loopHead)
      | none => some (s.setPhase i .loopHead)) = some s')
    (hgot : ∀ x t, got = some (x, t) → Takes (s.thread v) x t)
    (hi : (s.thread i).phase = .stealFrom v (c + 1)) :
    Move s.view s'.view := by
  have hstage : s.view.stage i = .working := stage_of hi
  match got with
  | none =>
      cases hs
      exact move_within hi rfl
  | some (.task id, t) =>
      cases hs
      have ht := hgot _ _ rfl
      show Move s.view { ((s.setThread v t).setPhase i (.stealFrom v c)).view with
        log := .cancelled id :: s.view.log }
      rw [view_setPhase, view_takes ht,
        show (Phase.stealFrom v c).stage = s.view.stage i from hstage.symm]
      show Move s.view { s.view with
        stage := Function.update s.view.stage i (s.view.stage i)
        held := _, log := _ }
      rw [Function.update_eq_self]
      exact Move.consume s.view v id (.cancelled id) (mem_held ht) (Or.inr rfl)
  | some (.abort, t) =>
      cases hs
      have ht := hgot _ _ rfl
      rw [view_setPhase, view_takes ht,
        show (Phase.loopHead : Phase n).stage = s.view.stage i from hstage.symm]
      show Move s.view { s.view with
        stage := Function.update s.view.stage i (s.view.stage i)
        held := _ }
      rw [Function.update_eq_self]
      exact Move.discard s.view v (mem_held ht)

/-- **SIMULATION**: each step of the pool is a move of the rendezvous. -/
theorem move_of_step (h : Inv s.view) {a : Act n}
    (hs : step s (i, a) = some s') : Move s.view s'.view := by
  cases a with
  | abort =>
      simp only [step] at hs
      split at hs
      · rename_i hg
        cases hs
        exact move_abort hg.1 hg.2
      · exact nomatch hs
  | spawn =>
      simp only [step] at hs
      split at hs
      · rename_i hi
        cases hs
        exact move_spawn hi
      · exact nomatch hs
  | runLocal =>
      simp only [step] at hs
      split at hs
      · rename_i hp
        split at hs
        · exact nomatch hs
        · rename_i x t hpop
          cases hs
          have ht := popLocal_takes hpop
          exact move_run (popsAndRuns_live h hp ht) ht
      · exact nomatch hs
  | cancelLocal =>
      simp only [step] at hs
      split at hs
      · rename_i hi
        split at hs
        · exact nomatch hs
        · rename_i x t hpop
          cases hs
          exact move_cancelOwn h (Or.inl hi) (popLocal_takes hpop)
      · exact nomatch hs
  | steal v =>
      simp only [step] at hs
      split at hs
      · rename_i hg
        split at hs
        · exact nomatch hs
        · rename_i x t hpop
          cases hs
          have ht := popBottom_takes hpop
          exact move_run (popsAndRuns_live h hg.1 ht) ht
      · exact nomatch hs
  | decrementLive =>
      simp only [step] at hs
      split at hs
      · rename_i hi
        cases hs
        show Move s.view { (s.setPhase i .clearing).view with
          numLive := s.view.numLive - 1 }
        rw [view_setPhase]
        exact Move.enter s.view i (stage_of hi)
      · exact nomatch hs
  | clear =>
      simp only [step] at hs
      split at hs
      · rename_i hi
        split at hs
        · rename_i hpop
          cases hs
          rw [view_setPhase]
          exact Move.cleared s.view i (stage_of hi) (held_eq_zero hpop)
        · rename_i x t hpop
          cases hs
          exact move_cancelOwn h (Or.inr hi) (popLocal_takes hpop)
      · exact nomatch hs
  | checkLive =>
      simp only [step] at hs
      split at hs
      · rename_i hi
        split at hs
        · cases hs
          exact move_within hi rfl
        · rename_i hn
          cases hs
          rw [view_setPhase]
          exact Move.sawAll s.view i (stage_of hi) (Int.not_lt.mp hn)
      · exact nomatch hs
  | push =>
      simp only [step] at hs
      split at hs
      · rename_i k hi
        cases hs
        exact move_push hi
      · exact nomatch hs
  | pickVictim v =>
      simp only [step] at hs
      split at hs
      · rename_i hg
        cases hs
        exact move_within hg.1 rfl
      · exact nomatch hs
  | stealOne fails =>
      simp only [step] at hs
      split at hs
      · rename_i v hi
        cases hs
        exact move_within hi rfl
      · rename_i v c hi
        refine move_stealOne hs (fun x t hg => ?_) hi
        split at hg
        · exact nomatch hg
        · exact popBottom_takes hg
      · exact nomatch hs
  | drain =>
      simp only [step] at hs
      split at hs
      · rename_i hi
        have hstage : s.view.stage i = .draining := stage_of hi
        split at hs
        · rename_i hpop
          cases hs
          rw [view_setPhase]
          exact Move.drained s.view i hstage (held_eq_zero hpop)
        · rename_i t hpop
          cases hs
          have ht := popLocal_takes hpop
          rw [view_takes ht]
          exact Move.discard s.view i (mem_held ht)
        · rename_i id t hpop
          -- the bag of a draining thread has abort tasks only
          have hno := h.holds i _ (mem_held (popLocal_takes hpop))
          rw [hstage] at hno
          exact nomatch hno
      · exact nomatch hs
  | decrementAborting =>
      simp only [step] at hs
      split at hs
      · rename_i hi
        cases hs
        show Move s.view { (s.setPhase i .waiting).view with
          numAborting := s.view.numAborting - 1 }
        rw [view_setPhase]
        exact Move.wait s.view i (stage_of hi)
      · exact nomatch hs
  | leave =>
      simp only [step] at hs
      split at hs
      · rename_i hg
        cases hs
        rw [view_setPhase]
        exact Move.leave s.view i (stage_of hg.1) hg.2
      · exact nomatch hs

end Steps

/-! ## Runs -/

theorem inv_initial {s : State n} (h : Initial s) : Inv s.view := by
  obtain ⟨hthread, hst, hid, hlog, hok⟩ := h
  have hstage : ∀ i, s.view.stage i = .live := fun i => by
    show (s.thread i).phase.stage = .live
    rw [hthread i]; rfl
  have hheld : ∀ i, s.view.held i = 0 := fun i => by
    show ((s.thread i).items : Multiset Item) = 0
    rw [hthread i]; rfl
  have hview : s.view.started = false ∧ s.view.nextId = 0 ∧ s.view.log = [] :=
    ⟨hst, hid, hlog⟩
  obtain ⟨hst', hid', hlog'⟩ := hview
  refine ⟨?_, ?_, ?_, ?_, ?_, ?_, ?_, ?_, hok⟩
  · intro i x hx
    rw [hheld i] at hx
    exact absurd hx (Multiset.notMem_zero x)
  · intro hs; rw [hst'] at hs; exact nomatch hs
  · intro hs; rw [hst'] at hs; exact nomatch hs
  · constructor
    · intro hs; rw [hst'] at hs; exact nomatch hs
    · rintro ⟨i, hi⟩; exact absurd (hstage i) hi
  · intro i hi; rw [hstage i] at hi; exact nomatch hi
  · intro i hi; rw [hstage i] at hi; exact nomatch hi
  · intro i; rw [hstage i, hlog']; rfl
  · intro id
    simp [View.copies, hheld, hlog', hid']

theorem inv_step {s s' : State n} {a : Fin n × Act n} (h : Inv s.view)
    (hs : step s a = some s') : Inv s'.view :=
  inv_move h (move_of_step (i := a.1) (a := a.2) h hs)

theorem inv_of_reachable {s : State n} (h : Reachable (system n) s) :
    Inv s.view :=
  Reachable.invariant (fun s => Inv s.view) h
    (fun _ hs => inv_initial hs) (fun _ _ _ hs hn => inv_step hs hn)

end PbAbortTask
