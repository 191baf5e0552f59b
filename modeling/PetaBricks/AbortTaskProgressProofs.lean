import Mathlib.Tactic.Common
import PetaBricks.AbortTaskProofs

/-! # AbortTask — every abort can finish

    Safety alone would hold of a pool that never gets anywhere.  Here some run
    leads from every state of an abort to all threads having left: first every
    live thread gives up its own tasks and steals the `AbortTask` from a thread
    that pushes it (`all_enter`), then all drain, wait and leave (`all_leave`).
    Each half descends along a weight summed over the threads. -/

namespace PbAbortTask

open PbTransition PbRendezvous PbCallStack

variable {n : Nat}

/-! ## Weights -/

/-- A weight summed over the threads. -/
def State.weigh (w : Thread n → Nat) (s : State n) : Nat :=
  ∑ i, w (s.thread i)

/-- What a thread has to do before it loops. -/
def liveWeight (t : Thread n) : Nat :=
  match t.phase.stage with
  | .live => 3 + t.items.length
  | .entering => 2 + t.items.length
  | .clearing => 1 + t.items.length
  | _ => 0

/-- What a looping thread has to do before its deque can be stolen from. -/
def offerRank (t : Thread n) : Nat :=
  match t.phase with
  | .loopHead => if t.deque = [] then 20 else 0
  | .pushing k =>
      (if t.deque = [] ∧ k + t.ondeck.toList.length < 2 then 22 else 2) + k
  | .stealFrom _ _ => if t.deque = [] then 21 else 1
  | _ => 0

/-- What a thread has to do before it leaves. -/
def leaveWeight (t : Thread n) : Nat :=
  match t.phase with
  | .pushing k => 7 + 2 * k + t.items.length
  | .stealFrom _ _ => 6 + t.items.length
  | .loopHead => 5 + t.items.length
  | .draining => 4 + t.items.length
  | .drained => 3
  | .waiting => 1
  | _ => 0

/-- Thread `i` has a step that makes it `t` and leaves the others alone. -/
def Alone (s : State n) (i : Fin n) (t : Thread n) : Prop :=
  ∃ a, (step s (i, a)).map State.thread = some (Function.update s.thread i t)

section Weights

variable {s s' : State n} {i : Fin n} {t : Thread n}

theorem weigh_update (w : Thread n → Nat)
    (h : s'.thread = Function.update s.thread i t) :
    s'.weigh w + w (s.thread i) = s.weigh w + w t := by
  rw [State.weigh, h]
  exact sum_update w s.thread i t

theorem Takes.length {x : Item} {t' : Thread n} (h : Takes t x t') :
    t.items.length = t'.items.length + 1 := by
  have hcard := congrArg Multiset.card h.rest
  rw [Multiset.card_erase_of_mem (Multiset.mem_coe.mpr h.mem),
    Multiset.coe_card, Multiset.coe_card, Nat.pred_eq_sub_one] at hcard
  have hpos := List.length_pos_of_mem h.mem
  omega

theorem pushLocal_length (t : Thread n) (x : Item) :
    (pushLocal t x).items.length = t.items.length + 1 := by
  have h := congrArg Multiset.card (pushLocal_items t x)
  rwa [Multiset.card_cons, Multiset.coe_card, Multiset.coe_card] at h

theorem thread_cancel (s : State n) (x : Item) :
    (s.cancel x).thread = s.thread := by
  cases x <;> rfl

end Weights

/-! ## All enter -/

section Enter

variable {s : State n} {i j : Fin n}

/-- A thread that has something to do before it loops can do it. -/
theorem own_step (hpos : 0 < liveWeight (s.thread i))
    (hidle : (s.thread i).phase = .live → (s.thread i).items ≠ []) :
    ∃ t, Alone s i t ∧ liveWeight t < liveWeight (s.thread i) := by
  cases hi : (s.thread i).phase with
  | live =>
      cases hpop : popLocal (s.thread i) with
      | none => exact absurd (items_of_popLocal_none hpop) (hidle hi)
      | some r =>
          obtain ⟨x, t⟩ := r
          have ht := popLocal_takes hpop
          refine ⟨t, ⟨.cancelLocal, ?_⟩, ?_⟩
          · simp only [step]
            rw [if_pos hi, hpop]
            exact congrArg some (thread_cancel (s.setThread i t) x)
          · simp only [liveWeight, ht.phase, hi, Phase.stage, ht.length]
            omega
  | entering =>
      refine ⟨{ s.thread i with phase := .clearing }, ⟨.decrementLive, ?_⟩, ?_⟩
      · simp only [step]
        rw [if_pos hi]
        rfl
      · simp only [liveWeight, hi, Phase.stage, Thread.items]
        omega
  | clearing =>
      cases hpop : popLocal (s.thread i) with
      | none =>
          refine ⟨{ s.thread i with phase := .loopHead }, ⟨.clear, ?_⟩, ?_⟩
          · simp only [step]
            rw [if_pos hi, hpop]
            rfl
          · simp only [liveWeight, hi, Phase.stage]
            omega
      | some r =>
          obtain ⟨x, t⟩ := r
          have ht := popLocal_takes hpop
          refine ⟨t, ⟨.clear, ?_⟩, ?_⟩
          · simp only [step]
            rw [if_pos hi, hpop]
            exact congrArg some (thread_cancel (s.setThread i t) x)
          · simp only [liveWeight, ht.phase, hi, Phase.stage, ht.length]
            omega
  | loopHead | pushing _ | stealFrom _ _ | draining | drained | waiting
  | left => simp [liveWeight, hi, Phase.stage] at hpos

/-- A push brings a looping thread closer to where it can be stolen from. -/
theorem offerRank_push (t : Thread n) {k : Nat}
    (ht : t.phase = .pushing (k + 1)) :
    offerRank ({ pushLocal t .abort with phase := .pushing k } : Thread n)
      < offerRank t := by
  obtain ⟨p, ondeck, deque⟩ := t
  subst ht
  cases ondeck with
  | none =>
      cases deque with
      | nil =>
          simp only [offerRank, pushLocal, Option.toList, List.length_nil,
            List.length_cons, true_and]
          split_ifs <;> omega
      | cons y rest => simp [offerRank, pushLocal]
  | some x =>
      cases deque with
      | nil =>
          simp only [offerRank, pushLocal, Option.toList, List.length_nil,
            List.length_cons, true_and, reduceCtorEq, false_and, if_false]
          split_ifs <;> omega
      | cons y rest => simp [offerRank, pushLocal]

/-- A looping thread can get to where its deque can be stolen from. -/
theorem offer_step (hne : i ≠ j) (hlive : 0 < s.numLive)
    (hj : (s.thread j).phase.stage = .working)
    (hnot : (s.thread j).phase = .loopHead → (s.thread j).deque = []) :
    ∃ t, Alone s j t ∧ t.phase.stage = .working ∧
      offerRank t < offerRank (s.thread j) := by
  cases hp : (s.thread j).phase with
  | loopHead =>
      have hd := hnot hp
      refine ⟨{ s.thread j with phase := .pushing 15 }, ⟨.checkLive, ?_⟩, rfl,
        ?_⟩
      · simp only [step]
        rw [if_pos hp, if_pos hlive, show workCount (s.thread j) = 0 by
          simp [workCount, hd]]
        rfl
      · have hnone : ¬15 + (s.thread j).ondeck.toList.length < 2 := by omega
        simp [offerRank, hp, hd, hnone]
  | pushing k =>
      cases k with
      | zero =>
          refine ⟨{ s.thread j with
              phase := .stealFrom i (workCount (s.thread i)) },
            ⟨.pickVictim i, ?_⟩, rfl, ?_⟩
          · simp only [step]
            rw [if_pos ⟨hp, hne⟩]
            rfl
          · simp only [offerRank, hp]
            cases (s.thread j).deque with
            | nil => cases (s.thread j).ondeck <;> simp
            | cons _ _ => simp
      | succ k =>
          refine ⟨{ pushLocal (s.thread j) .abort with phase := .pushing k },
            ⟨.push, ?_⟩, rfl, offerRank_push _ hp⟩
          simp only [step, hp]
          rfl
  | stealFrom v c =>
      refine ⟨{ s.thread j with phase := .loopHead }, ⟨.stealOne true, ?_⟩, rfl,
        ?_⟩
      · cases c <;> simp only [step, hp] <;> rfl
      · simp only [offerRank, hp]
        split_ifs <;> omega
  | live | entering | clearing | draining | drained | waiting | left =>
      rw [hp] at hj; cases hj

end Enter

/-- A thread's own step, as a run that keeps the invariant. -/
theorem Alone.run {s : State n} {i : Fin n} {t : Thread n} (h : Alone s i t)
    (hinv : Inv s.view) (hst : s.started = true) :
    ∃ as s', RunOf (system n) s as s' ∧ Inv s'.view ∧ s'.started = true ∧
      s'.thread = Function.update s.thread i t := by
  obtain ⟨a, ha⟩ := h
  obtain ⟨s', hs, hthread⟩ := Option.map_eq_some_iff.mp ha
  have hm := move_of_step hinv hs
  exact ⟨[(i, a)], s', RunOf.single hs, inv_move hinv hm, started_move hm hst,
    hthread⟩

/-- **OFFER AND STEAL**: when only idle threads have not entered, one of them can
    be brought to enter. -/
theorem exists_run_join {s : State n} {i j : Fin n} (hinv : Inv s.view)
    (hst : s.started = true) (hi : (s.thread i).phase = .live)
    (hidle : (s.thread i).items = [])
    (hj : (s.thread j).phase.stage = .working) :
    ∃ as s', RunOf (system n) s as s' ∧ (Inv s'.view ∧ s'.started = true) ∧
      s'.weigh liveWeight < s.weigh liveWeight := by
  have hne : i ≠ j := by
    rintro rfl
    rw [hi] at hj
    exact nomatch hj
  let P : State n → Prop := fun u =>
    (Inv u.view ∧ u.started = true) ∧ u.thread i = s.thread i ∧
      (u.thread j).phase.stage = .working ∧
      u.weigh liveWeight = s.weigh liveWeight
  let Goal : State n → Prop := fun u =>
    (u.thread j).phase = .loopHead ∧ (u.thread j).deque ≠ []
  obtain ⟨as, u, hr, ⟨⟨hu, hust⟩, hui, huj, hul⟩, hhead, hdeque⟩ :=
    exists_run_of_descent (system n) P Goal
      (fun u => offerRank (u.thread j)) (by
        rintro u ⟨⟨hu, hust⟩, hui, huj, hul⟩
        by_cases hgoal : Goal u
        · exact Or.inl hgoal
        · refine Or.inr ?_
          have hlive : 0 < u.numLive := by
            have hsum := hu.numLive hust
            have hle : (u.view.stage i).isLive
                ≤ ∑ k, (u.view.stage k).isLive :=
              Finset.single_le_sum (f := fun k => (u.view.stage k).isLive)
                (fun _ _ => Nat.zero_le _) (Finset.mem_univ i)
            rw [stage_of (show (u.thread i).phase = .live by
              rw [hui, hi])] at hle
            have hone : ((Phase.live : Phase n).stage).isLive = 1 := rfl
            rw [show u.numLive = u.view.numLive from rfl, hsum]
            omega
          obtain ⟨t, ht, htw, hlt⟩ := offer_step hne hlive huj (fun hp => by
            by_contra hd
            exact hgoal ⟨hp, hd⟩)
          obtain ⟨bs, u', hr', hu', hust', hth⟩ := ht.run hu hust
          have hweigh := weigh_update liveWeight hth
          simp only [liveWeight, huj, htw] at hweigh
          have hsame : u'.weigh liveWeight = u.weigh liveWeight := hweigh
          refine ⟨bs, u', hr', ⟨⟨hu', hust'⟩, ?_, ?_, hsame.trans hul⟩, ?_⟩
          · rw [hth, Function.update_of_ne hne, hui]
          · rw [hth, Function.update_self]; exact htw
          · rw [hth, Function.update_self]; exact hlt)
      s ⟨⟨hinv, hst⟩, rfl, hj, rfl⟩
  -- now the idle thread steals what `j` pushed
  cases hpop : popBottom (u.thread j) with
  | none =>
      unfold popBottom at hpop
      rw [List.getLast?_eq_some_getLast hdeque] at hpop
      exact nomatch hpop
  | some r =>
      obtain ⟨x, t⟩ := r
      have ht := popBottom_takes hpop
      have hx : x = .abort := by
        have hmay := hu.holds j x (mem_held ht)
        rw [show u.view.stage j = .working from huj] at hmay
        exact hmay
      subst hx
      have hnone : (popLocal (u.thread i)).isNone = true := by
        rw [hui]
        cases hown : popLocal (s.thread i) with
        | none => rfl
        | some r =>
            obtain ⟨x, t'⟩ := r
            have hmem := (popLocal_takes hown).mem
            rw [hidle] at hmem
            exact nomatch hmem
      have hstep : step u (i, .steal j)
          = some ((u.setThread j t).run i .abort) := by
        simp only [step]
        rw [if_pos ⟨by rw [hui, hi]; rfl, hnone, Ne.symm hne⟩, hpop]
      have hm := move_of_step hu hstep
      have hlast : RunOf (system n) u [(i, .steal j)]
          ((u.setThread j t).run i .abort) := RunOf.single hstep
      refine ⟨as ++ [(i, .steal j)], _, hr.append hlast,
        ⟨inv_move hu hm, started_move hm hust⟩, ?_⟩
      have h1 : (u.setThread j t).weigh liveWeight + liveWeight (u.thread j)
          = u.weigh liveWeight + liveWeight t := weigh_update liveWeight rfl
      have h2 : ((u.setThread j t).run i .abort).weigh liveWeight
            + liveWeight ((u.setThread j t).thread i)
          = (u.setThread j t).weigh liveWeight
            + liveWeight { (u.setThread j t).thread i with phase := .entering } :=
        weigh_update liveWeight rfl
      have hit : (u.setThread j t).thread i = s.thread i := by
        rw [← hui]; exact Function.update_of_ne hne _ _
      rw [hit] at h2
      simp only [liveWeight, ht.phase, huj] at h1
      simp only [liveWeight, hi, Phase.stage, Thread.items] at h2
      omega

/-- **ALL ENTER**: some run brings every thread into its loop. -/
theorem all_enter {s : State n} (hinv : Inv s.view) (hst : s.started = true) :
    ∃ as s', RunOf (system n) s as s' ∧ (Inv s'.view ∧ s'.started = true) ∧
      s'.weigh liveWeight = 0 := by
  refine exists_run_of_descent _ (fun u => Inv u.view ∧ u.started = true) _
    (State.weigh liveWeight) ?_ s ⟨hinv, hst⟩
  rintro u ⟨hu, hust⟩
  by_cases hzero : u.weigh liveWeight = 0
  · exact Or.inl hzero
  refine Or.inr ?_
  obtain ⟨i, hpos⟩ : ∃ i, 0 < liveWeight (u.thread i) := by
    by_contra hno
    refine hzero (Finset.sum_eq_zero fun i _ => ?_)
    exact Nat.eq_zero_of_not_pos fun hpos => hno ⟨i, hpos⟩
  by_cases hown : ∃ i, 0 < liveWeight (u.thread i) ∧
      ((u.thread i).phase = .live → (u.thread i).items ≠ [])
  · obtain ⟨i, hpos, hbusy⟩ := hown
    obtain ⟨t, ht, hlt⟩ := own_step hpos hbusy
    obtain ⟨as, u', hr, hu', hust', hth⟩ := ht.run hu hust
    have hweigh := weigh_update liveWeight hth
    exact ⟨as, u', hr, ⟨hu', hust'⟩, by omega⟩
  · have hidle : ∀ k, 0 < liveWeight (u.thread k) →
        (u.thread k).phase = .live ∧ (u.thread k).items = [] := by
      intro k hk
      by_contra hno
      exact hown ⟨k, hk, fun hlive hitems => hno ⟨hlive, hitems⟩⟩
    obtain ⟨hi, hitems⟩ := hidle i hpos
    -- somebody started the abort, and it can only be looping
    obtain ⟨j, hj⟩ := hu.begun.mp hust
    have hjw : (u.thread j).phase.stage = .working := by
      have hnl : liveWeight (u.thread j) = 0 := by
        by_contra hne
        exact hj (congrArg Phase.stage (hidle j (Nat.pos_of_ne_zero hne)).1)
      have hsaw : ((u.thread j).phase.stage).sawAll = false := by
        rw [← Bool.not_eq_true]
        intro hsaw
        have hz := hu.not_live (i := j) hsaw i
        rw [show u.view.stage i = .live from congrArg Phase.stage hi] at hz
        exact nomatch hz
      unfold liveWeight at hnl
      cases hstage : (u.thread j).phase.stage with
      | working => rfl
      | live | entering | clearing => rw [hstage] at hnl; simp at hnl
      | draining | drained | waiting | left =>
          rw [hstage] at hsaw; exact nomatch hsaw
    exact exists_run_join hu hust hi hitems hjw

/-! ## All leave -/

section Leave

variable {s : State n} {i : Fin n}

/-- With everybody in its loop or later, a thread that is not waiting yet can get
    closer to it. -/
theorem late_step (hn : 2 ≤ n) (hinv : Inv s.view) (hlive : s.numLive ≤ 0)
    (hzero : liveWeight (s.thread i) = 0)
    (hlate : (s.thread i).phase ≠ .waiting ∧ (s.thread i).phase ≠ .left) :
    ∃ t, Alone s i t ∧ liveWeight t = 0 ∧
      leaveWeight t < leaveWeight (s.thread i) := by
  cases hp : (s.thread i).phase with
  | loopHead =>
      refine ⟨{ s.thread i with phase := .draining }, ⟨.checkLive, ?_⟩, rfl, ?_⟩
      · simp only [step]
        rw [if_pos hp, if_neg (by omega)]
        rfl
      · simp only [leaveWeight, hp, Thread.items]
        omega
  | pushing k =>
      cases k with
      | zero =>
          obtain ⟨v, hv⟩ : ∃ v, v ≠ i :=
            have : Nontrivial (Fin n) := Fin.nontrivial_iff_two_le.mpr hn
            exists_ne i
          refine ⟨{ s.thread i with
              phase := .stealFrom v (workCount (s.thread v)) },
            ⟨.pickVictim v, ?_⟩, rfl, ?_⟩
          · simp only [step]
            rw [if_pos ⟨hp, hv⟩]
            rfl
          · simp only [leaveWeight, hp, Thread.items]
            omega
      | succ k =>
          refine ⟨{ pushLocal (s.thread i) .abort with phase := .pushing k },
            ⟨.push, ?_⟩, rfl, ?_⟩
          · simp only [step, hp]
            rfl
          · have hlen := pushLocal_length (s.thread i) .abort
            simp only [leaveWeight, hp, Thread.items] at hlen ⊢
            omega
  | stealFrom v c =>
      refine ⟨{ s.thread i with phase := .loopHead }, ⟨.stealOne true, ?_⟩, rfl,
        ?_⟩
      · cases c <;> simp only [step, hp] <;> rfl
      · simp only [leaveWeight, hp, Thread.items]
        omega
  | draining =>
      cases hpop : popLocal (s.thread i) with
      | none =>
          refine ⟨{ s.thread i with phase := .drained }, ⟨.drain, ?_⟩, rfl, ?_⟩
          · simp only [step]
            rw [if_pos hp, hpop]
            rfl
          · simp only [leaveWeight, hp]
            omega
      | some r =>
          obtain ⟨x, t⟩ := r
          have ht := popLocal_takes hpop
          have hx : x = .abort := by
            have hmay := hinv.holds i x (mem_held ht)
            rw [show s.view.stage i = .draining from
              congrArg Phase.stage hp] at hmay
            exact hmay
          subst hx
          refine ⟨t, ⟨.drain, ?_⟩, ?_, ?_⟩
          · simp only [step]
            rw [if_pos hp, hpop]
            rfl
          · simp only [liveWeight, ht.phase, hp, Phase.stage]
          · simp only [leaveWeight, ht.phase, hp, ht.length]
            omega
  | drained =>
      refine ⟨{ s.thread i with phase := .waiting }, ⟨.decrementAborting, ?_⟩,
        rfl, ?_⟩
      · simp only [step]
        rw [if_pos hp]
        rfl
      · simp only [leaveWeight, hp]
        omega
  | live | entering | clearing =>
      simp [liveWeight, hp, Phase.stage] at hzero
  | waiting => exact absurd hp hlate.1
  | left => exact absurd hp hlate.2

end Leave

/-- **ALL LEAVE**: when everybody is in its loop or later, some run lets everybody
    leave. -/
theorem all_leave (hn : 2 ≤ n) {s : State n} (hinv : Inv s.view)
    (hst : s.started = true) (hzero : s.weigh liveWeight = 0) :
    ∃ as s', RunOf (system n) s as s' ∧
      ((Inv s'.view ∧ s'.started = true) ∧ s'.weigh liveWeight = 0) ∧
      ∀ i, (s'.thread i).phase = .left := by
  refine exists_run_of_descent _
    (fun u => (Inv u.view ∧ u.started = true) ∧ u.weigh liveWeight = 0) _
    (State.weigh leaveWeight) ?_ s ⟨⟨hinv, hst⟩, hzero⟩
  rintro u ⟨⟨hu, hust⟩, huz⟩
  have hzeros : ∀ i, liveWeight (u.thread i) = 0 := fun i =>
    Finset.sum_eq_zero_iff.mp huz i (Finset.mem_univ i)
  by_cases hlate : ∃ i, (u.thread i).phase ≠ .waiting ∧
      (u.thread i).phase ≠ .left
  · obtain ⟨i, hi⟩ := hlate
    have hnone : ∀ j, (u.view.stage j).isLive = 0 := by
      intro j
      have hj := hzeros j
      show ((u.thread j).phase.stage).isLive = 0
      unfold liveWeight at hj
      cases hstage : (u.thread j).phase.stage <;> rw [hstage] at hj <;>
        simp [Stage.isLive] at hj ⊢
    have hlive : u.numLive ≤ 0 := by
      have hsum := hu.numLive hust
      rw [Finset.sum_eq_zero fun j _ => hnone j] at hsum
      exact le_of_eq hsum
    obtain ⟨t, ht, htz, hlt⟩ := late_step hn hu hlive (hzeros i) hi
    obtain ⟨as, u', hr, hu', hust', hth⟩ := ht.run hu hust
    have hw1 := weigh_update liveWeight hth
    have hw2 := weigh_update leaveWeight hth
    rw [hzeros i, huz, htz] at hw1
    exact Or.inr ⟨as, u', hr, ⟨⟨hu', hust'⟩, hw1⟩, by omega⟩
  · have hall : ∀ i, (u.thread i).phase = .waiting ∨
        (u.thread i).phase = .left := by
      intro i
      by_contra hno
      exact hlate ⟨i, fun h => hno (Or.inl h), fun h => hno (Or.inr h)⟩
    by_cases hw : ∃ i, (u.thread i).phase = .waiting
    · obtain ⟨i, hi⟩ := hw
      have hdone : u.numAborting ≤ 0 := by
        have hsum := hu.numAborting hust
        rw [Finset.sum_eq_zero fun j _ => by
          show ((u.thread j).phase.stage).isAborting = 0
          rcases hall j with hj | hj <;> rw [hj] <;> rfl] at hsum
        exact le_of_eq hsum
      have ht : Alone u i { u.thread i with phase := .left } := by
        refine ⟨.leave, ?_⟩
        simp only [step]
        rw [if_pos ⟨hi, hdone⟩]
        rfl
      obtain ⟨as, u', hr, hu', hust', hth⟩ := ht.run hu hust
      have hw1 := weigh_update liveWeight hth
      have hw2 := weigh_update leaveWeight hth
      rw [hzeros i, huz] at hw1
      simp only [leaveWeight, hi] at hw2
      exact Or.inr ⟨as, u', hr, ⟨⟨hu', hust'⟩, hw1⟩, by omega⟩
    · refine Or.inl fun i => ?_
      rcases hall i with hi | hi
      · exact absurd ⟨i, hi⟩ hw
      · exact hi

/-- **PROGRESS**: from every state of an abort some run leads to all threads having
    left. -/
theorem can_finish (hn : 2 ≤ n) {s : State n} (hinv : Inv s.view)
    (hst : s.started = true) :
    ∃ as s', RunOf (system n) s as s' ∧ ∀ i, (s'.thread i).phase = .left := by
  obtain ⟨as, u, hr, ⟨hu, hust⟩, huz⟩ := all_enter hinv hst
  obtain ⟨bs, w, hr', -, hleft⟩ := all_leave hn hu hust huz
  exact ⟨as ++ bs, w, hr.append hr', hleft⟩

/-! ## The result -/

/-- How often the task is in a deque. -/
def State.inDeques (s : State n) (id : Nat) : Nat :=
  ∑ i, (s.thread i).items.count (.task id)

/-- How often the task was run or cancelled. -/
def State.handled (s : State n) (id : Nat) : Nat :=
  s.log.count (.ran id) + s.log.count (.cancelled id)

/-- **RENDEZVOUS**: in every interleaving no assertion fails and the drain meets
    nothing but the `AbortTask`; no thread enters twice; every task that was
    pushed is in one deque or was run or cancelled once; a thread leaves only
    when all have entered once, have drained and hold nothing, so that every
    task was run or cancelled once; and every abort can get there. -/
theorem abort_rendezvous (hn : 2 ≤ n) {s : State n}
    (h : Reachable (system n) s) :
    s.violated = false ∧
    (∀ i, s.log.count (.entered i) ≤ 1) ∧
    (∀ i, (s.thread i).phase = .draining →
      ∀ x ∈ (s.thread i).items, x = .abort) ∧
    (∀ id, s.inDeques id + s.handled id = if id < s.nextId then 1 else 0) ∧
    (∀ i, (s.thread i).phase = .left →
      (∀ j, s.log.count (.entered j) = 1 ∧ (s.thread j).items = [] ∧
        ((s.thread j).phase = .waiting ∨ (s.thread j).phase = .left)) ∧
      ∀ id, id < s.nextId → s.handled id = 1) ∧
    (s.started = true →
      ∃ as s', RunOf (system n) s as s' ∧ ∀ i, (s'.thread i).phase = .left) := by
  have hinv := inv_of_reachable h
  have hcopies : ∀ id, s.inDeques id + s.handled id
      = if id < s.nextId then 1 else 0 := fun id => by
    have hc := hinv.copies id
    rw [← show s.view.nextId = s.nextId from rfl, ← hc, View.copies, add_assoc]
    simp only [State.inDeques, State.handled, State.view, Multiset.coe_count]
  have hempty : ∀ i, (s.thread i).phase = .left → ∀ j,
      (s.thread j).items = [] := fun i hi j =>
    Multiset.coe_eq_zero _ |>.mp (hinv.all_empty (stage_of hi) j)
  refine ⟨hinv.safe, fun i => ?_, fun i hi x hx => ?_, hcopies,
    fun i hi => ⟨fun j => ⟨?_, hempty i hi j, ?_⟩, fun id hid => ?_⟩,
    fun hst => can_finish hn hinv hst⟩
  · rw [show s.log = s.view.log from rfl, hinv.entered i]
    cases s.view.stage i <;> simp [Stage.entries]
  · have hmay := hinv.holds i x (Multiset.mem_coe.mpr hx)
    rw [show s.view.stage i = .draining from stage_of hi] at hmay
    exact hmay
  · have hj := hinv.not_aborting (stage_of hi) j
    rw [show s.log = s.view.log from rfl, hinv.entered j]
    rcases hj with hj | hj <;> rw [hj] <;> rfl
  · have hj : (s.thread j).phase.stage = .waiting ∨
        (s.thread j).phase.stage = .left := hinv.not_aborting (stage_of hi) j
    cases hp : (s.thread j).phase <;> rw [hp] at hj <;>
      simp [Phase.stage] at hj ⊢
  · have hc := hcopies id
    rw [if_pos hid, State.inDeques,
      Finset.sum_eq_zero fun j _ => by rw [hempty i hi j]; rfl] at hc
    omega

/-- Two threads: `i` aborts, `j` runs a task and steals the `AbortTask`. -/
def abortRun (i j : Fin n) : List (Fin n × Act n) :=
  [(i, .abort), (j, .spawn), (i, .decrementLive), (i, .clear), (i, .checkLive)] ++
    List.replicate 15 (i, .push) ++
    [(i, .pickVictim j), (i, .stealOne false), (j, .runLocal), (j, .steal i),
      (j, .decrementLive), (j, .clear), (j, .checkLive), (j, .drain),
      (j, .decrementAborting), (i, .checkLive)] ++
    List.replicate 15 (i, .drain) ++
    [(i, .decrementAborting), (i, .leave), (j, .leave)]

/-- A pool of two, before anything happened. -/
def idlePool : State 2 :=
  ⟨fun _ => ⟨.live, none, []⟩, false, 0, 0, 0, [], false⟩

theorem abort_rendezvous_two :
    ∃ s : State 2, Reachable (system 2) s ∧
      (s.violated = false ∧
        (∀ i, s.log.count (.entered i) ≤ 1) ∧
        (∀ i, (s.thread i).phase = .draining →
          ∀ x ∈ (s.thread i).items, x = .abort) ∧
        (∀ id, s.inDeques id + s.handled id = if id < s.nextId then 1 else 0) ∧
        (∀ i, (s.thread i).phase = .left →
          (∀ j, s.log.count (.entered j) = 1 ∧ (s.thread j).items = [] ∧
            ((s.thread j).phase = .waiting ∨ (s.thread j).phase = .left)) ∧
          ∀ id, id < s.nextId → s.handled id = 1) ∧
        (s.started = true → ∃ as s', RunOf (system 2) s as s' ∧
          ∀ i, (s'.thread i).phase = .left)) ∧
      ((s.thread 0).phase, (s.thread 1).phase, s.log)
        = (.left, .left, [.entered 1, .ran 0, .entered 0]) := by
  obtain ⟨s, hs, hv⟩ := exists_of_exec_map (system 2)
    (fun s : State 2 => ((s.thread 0).phase, (s.thread 1).phase, s.log))
    (.left, .left, [.entered 1, .ran 0, .entered 0]) (abortRun 0 1) (s := idlePool)
    ⟨fun _ => rfl, rfl, rfl, rfl, rfl⟩ rfl
  exact ⟨s, hs, abort_rendezvous (by decide) hs, hv⟩

end PbAbortTask
