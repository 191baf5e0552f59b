import Mathlib.Data.Multiset.Count
import Mathlib.Algebra.Order.BigOperators.Group.Finset
import PetaBricks.CallStackProofs
import PetaBricks.AbortTaskModel

/-! # Rendezvous — an abort as bags of work and stages of threads

    What aborting a pool is for, without deques and loops.  Every thread holds a
    bag of work.  It goes through the stages `live`, `entering`, `clearing`,
    `working`, `draining`, `drained`, `waiting`, `left`; two counters say how many
    threads have not entered yet and how many have not drained yet.  A piece of
    work can be consumed by anybody at any time.

    `Inv` relates bags, stages and counters; `inv_move` is its preservation.
    `Inv.rendezvous` reads off what it says once somebody has left. -/

namespace PbRendezvous

open PbCallStack
open PbAbortTask (Item Event)

/-- How far a thread is. -/
inductive Stage where
  | live | entering | clearing | working | draining | drained | waiting | left
  deriving DecidableEq, Repr

/-- The pool.  `violated` is a failed assertion. -/
structure View (n : Nat) where
  stage : Fin n → Stage
  held : Fin n → Multiset Item
  started : Bool
  numLive : Int
  numAborting : Int
  nextId : Nat
  log : List (Event n)
  violated : Bool

/-- The thread has not entered, or has not said so yet. -/
def Stage.isLive : Stage → Nat
  | .live | .entering => 1
  | _ => 0

/-- The thread has not said that it drained. -/
def Stage.isAborting : Stage → Nat
  | .waiting | .left => 0
  | _ => 1

/-- How often the thread entered. -/
def Stage.entries : Stage → Nat
  | .live => 0
  | _ => 1

/-- What the thread may hold. -/
def Stage.MayHold : Stage → Item → Prop
  | .live, x | .entering, x | .clearing, x => x ≠ .abort
  | .working, x | .draining, x => x = .abort
  | .drained, _ | .waiting, _ | .left, _ => False

/-- The thread saw that all have entered. -/
def Stage.sawAll : Stage → Bool
  | .draining | .drained | .waiting | .left => true
  | _ => false

variable {n : Nat}

/-- What can happen. -/
inductive Move : View n → View n → Prop where
  | stay (v : View n) : Move v v
  | abort (v : View n) (i : Fin n) :
      v.started = false → v.stage i = .live →
      Move v { v with
        stage := Function.update v.stage i .entering
        started := true, numLive := n, numAborting := n
        log := .entered i :: v.log }
  | spawn (v : View n) (i : Fin n) :
      v.stage i = .live →
      Move v { v with
        held := Function.update v.held i (.task v.nextId ::ₘ v.held i)
        nextId := v.nextId + 1 }
  | consume (v : View n) (j : Fin n) (id : Nat) (e : Event n) :
      .task id ∈ v.held j → e = .ran id ∨ e = .cancelled id →
      Move v { v with
        held := Function.update v.held j ((v.held j).erase (.task id))
        log := e :: v.log }
  | join (v : View n) (i j : Fin n) :
      v.stage i = .live → .abort ∈ v.held j →
      Move v { v with
        stage := Function.update v.stage i .entering
        held := Function.update v.held j ((v.held j).erase .abort)
        log := .entered i :: v.log }
  | discard (v : View n) (j : Fin n) :
      .abort ∈ v.held j →
      Move v { v with
        held := Function.update v.held j ((v.held j).erase .abort) }
  | push (v : View n) (i : Fin n) :
      v.stage i = .working →
      Move v { v with
        held := Function.update v.held i (.abort ::ₘ v.held i) }
  | enter (v : View n) (i : Fin n) :
      v.stage i = .entering →
      Move v { v with
        stage := Function.update v.stage i .clearing
        numLive := v.numLive - 1 }
  | cleared (v : View n) (i : Fin n) :
      v.stage i = .clearing → v.held i = 0 →
      Move v { v with stage := Function.update v.stage i .working }
  | sawAll (v : View n) (i : Fin n) :
      v.stage i = .working → v.numLive ≤ 0 →
      Move v { v with stage := Function.update v.stage i .draining }
  | drained (v : View n) (i : Fin n) :
      v.stage i = .draining → v.held i = 0 →
      Move v { v with stage := Function.update v.stage i .drained }
  | wait (v : View n) (i : Fin n) :
      v.stage i = .drained →
      Move v { v with
        stage := Function.update v.stage i .waiting
        numAborting := v.numAborting - 1 }
  | leave (v : View n) (i : Fin n) :
      v.stage i = .waiting → v.numAborting ≤ 0 →
      Move v { v with stage := Function.update v.stage i .left }

/-- How often a task is held, was run or was cancelled. -/
def View.copies (v : View n) (id : Nat) : Nat :=
  ∑ i, (v.held i).count (.task id) + v.log.count (.ran id) +
    v.log.count (.cancelled id)

/-- **THE INVARIANT.** -/
structure Inv (v : View n) : Prop where
  holds : ∀ i, ∀ x ∈ v.held i, (v.stage i).MayHold x
  numLive : v.started = true → v.numLive = ↑(∑ i, (v.stage i).isLive)
  numAborting : v.started = true → v.numAborting = ↑(∑ i, (v.stage i).isAborting)
  begun : v.started = true ↔ ∃ i, v.stage i ≠ .live
  sawAll : ∀ i, (v.stage i).sawAll = true → v.numLive ≤ 0
  gone : ∀ i, v.stage i = .left → v.numAborting ≤ 0
  entered : ∀ i, v.log.count (.entered i) = (v.stage i).entries
  copies : ∀ id, v.copies id = if id < v.nextId then 1 else 0
  safe : v.violated = false

/-! ## One move -/

section Moves

variable {v v' : View n}

theorem holds_move (h : Inv v) (hm : Move v v') :
    ∀ i, ∀ x ∈ v'.held i, (v'.stage i).MayHold x := by
  intro k x hx
  have hold := h.holds k
  cases hm with
  | stay => exact hold x hx
  | abort i hs hi =>
      by_cases hk : k = i
      · subst hk
        rw [hi] at hold
        simpa [Stage.MayHold] using hold x hx
      · simpa [Function.update_of_ne hk] using hold x hx
  | spawn i hi =>
      by_cases hk : k = i
      · subst hk
        rw [hi] at hold
        simp only [Function.update_self] at hx
        show (v.stage k).MayHold x
        rw [hi]
        rcases Multiset.mem_cons.mp hx with hnew | hin
        · rw [hnew]; exact fun hno => nomatch hno
        · exact hold x hin
      · simp only [Function.update_of_ne hk] at hx
        exact hold x hx
  | consume j id e hj he | discard j hj =>
      by_cases hk : k = j
      · subst hk
        simp only [Function.update_self] at hx
        exact hold x (Multiset.mem_of_mem_erase hx)
      · simp only [Function.update_of_ne hk] at hx
        exact hold x hx
  | join i j hi hj =>
      have hin : x ∈ v.held k := by
        by_cases hk : k = j
        · subst hk
          simp only [Function.update_self] at hx
          exact Multiset.mem_of_mem_erase hx
        · simpa only [Function.update_of_ne hk] using hx
      by_cases hk : k = i
      · subst hk
        rw [hi] at hold
        simpa [Stage.MayHold] using hold x hin
      · simpa [Function.update_of_ne hk] using hold x hin
  | push i hi =>
      by_cases hk : k = i
      · subst hk
        rw [hi] at hold
        simp only [Function.update_self] at hx
        show (v.stage k).MayHold x
        rw [hi]
        rcases Multiset.mem_cons.mp hx with hnew | hin
        · exact hnew
        · exact hold x hin
      · simp only [Function.update_of_ne hk] at hx
        exact hold x hx
  | enter i hi | sawAll i hi hn =>
      by_cases hk : k = i
      · subst hk
        rw [hi] at hold
        simpa [Stage.MayHold] using hold x hx
      · simpa [Function.update_of_ne hk] using hold x hx
  | cleared i hi he | drained i hi he =>
      by_cases hk : k = i
      · subst hk
        rw [show v.held k = 0 from he] at hx
        exact absurd hx (Multiset.notMem_zero x)
      · simpa [Function.update_of_ne hk] using hold x hx
  | wait i hi | leave i hi hn =>
      by_cases hk : k = i
      · subst hk
        rw [hi] at hold
        exact absurd (hold x hx) (fun hno => hno)
      · simpa [Function.update_of_ne hk] using hold x hx

/-- What a thread that changes its stage adds to a sum over the stages. -/
theorem sum_stage (w : Stage → Nat) (v : View n) {i : Fin n} {p : Stage}
    (q : Stage) (hi : v.stage i = p) :
    ∑ j, w (Function.update v.stage i q j) + w p = ∑ j, w (v.stage j) + w q := by
  rw [← hi]
  exact sum_update w v.stage i q

/-- A change of stage that the weight does not see. -/
theorem sum_stage_same (w : Stage → Nat) {v : View n} {i : Fin n} {p q : Stage}
    (hi : v.stage i = p) (hw : w p = w q) :
    ∑ j, w (Function.update v.stage i q j) = ∑ j, w (v.stage j) := by
  have hsum := sum_stage w v q hi
  omega

theorem started_of_entered (h : Inv v) {i : Fin n} (hi : v.stage i ≠ .live) :
    v.started = true := h.begun.mpr ⟨i, hi⟩

/-- Somebody holds the abort task only while an abort is under way. -/
theorem started_of_abort (h : Inv v) {j : Fin n} (hj : .abort ∈ v.held j) :
    v.started = true := by
  refine started_of_entered h (i := j) fun hlive => ?_
  have hno := h.holds j _ hj
  rw [hlive] at hno
  exact hno rfl

theorem all_live (h : Inv v) (hs : v.started = false) (i : Fin n) :
    v.stage i = .live := by
  by_contra hi
  rw [started_of_entered h hi] at hs
  exact nomatch hs

theorem numLive_move (h : Inv v) (hm : Move v v') :
    v'.started = true → v'.numLive = ↑(∑ i, (v'.stage i).isLive) := by
  intro hst
  cases hm with
  | stay | spawn _ _ | consume _ _ _ _ _ | discard _ _ | push _ _ =>
      exact h.numLive hst
  | abort i hs hi =>
      show (n : Int) = ↑(∑ j, (Function.update v.stage i .entering j).isLive)
      rw [sum_stage_same Stage.isLive hi (by rfl)]
      simp [all_live h hs, Stage.isLive]
  | join i j hi hj =>
      rw [h.numLive (started_of_abort h hj)]
      exact congrArg _ (sum_stage_same Stage.isLive hi (by rfl)).symm
  | cleared i hi _ | sawAll i hi _ | drained i hi _ | wait i hi
  | leave i hi _ =>
      rw [h.numLive hst]
      exact congrArg _ (sum_stage_same Stage.isLive hi (by rfl)).symm
  | enter i hi =>
      have hold := h.numLive hst
      have hsum := sum_stage Stage.isLive v .clearing hi
      simp only [Stage.isLive] at hold hsum ⊢
      omega

theorem numAborting_move (h : Inv v) (hm : Move v v') :
    v'.started = true →
      v'.numAborting = ↑(∑ i, (v'.stage i).isAborting) := by
  intro hst
  cases hm with
  | stay | spawn _ _ | consume _ _ _ _ _ | discard _ _ | push _ _ =>
      exact h.numAborting hst
  | abort i hs hi =>
      show (n : Int)
        = ↑(∑ j, (Function.update v.stage i .entering j).isAborting)
      rw [sum_stage_same Stage.isAborting hi (by rfl)]
      simp [all_live h hs, Stage.isAborting]
  | join i j hi hj =>
      rw [h.numAborting (started_of_abort h hj)]
      exact congrArg _ (sum_stage_same Stage.isAborting hi (by rfl)).symm
  | enter i hi | cleared i hi _ | sawAll i hi _ | drained i hi _
  | leave i hi _ =>
      rw [h.numAborting hst]
      exact congrArg _ (sum_stage_same Stage.isAborting hi (by rfl)).symm
  | wait i hi =>
      have hold := h.numAborting hst
      have hsum := sum_stage Stage.isAborting v .waiting hi
      simp only [Stage.isAborting] at hold hsum ⊢
      omega

/-- A thread that left `live` stays out of it. -/
theorem begun_move (h : Inv v) (hm : Move v v') :
    v'.started = true ↔ ∃ i, v'.stage i ≠ .live := by
  cases hm with
  | stay | spawn _ _ | consume _ _ _ _ _ | discard _ _ | push _ _ =>
      exact h.begun
  | abort i hs hi => exact ⟨fun _ => ⟨i, by simp⟩, fun _ => rfl⟩
  | join i j hi hj =>
      have hst := started_of_abort h hj
      exact ⟨fun _ => ⟨i, by simp⟩, fun _ => hst⟩
  | enter i hi | cleared i hi _ | sawAll i hi _ | drained i hi _ | wait i hi
  | leave i hi _ =>
      have hst := started_of_entered h (i := i) (by simp [hi])
      exact ⟨fun _ => ⟨i, by simp⟩, fun _ => hst⟩

/-- The counter of live threads only falls once the abort started. -/
theorem sawAll_move (h : Inv v) (hm : Move v v') :
    ∀ i, (v'.stage i).sawAll = true → v'.numLive ≤ 0 := by
  intro k hk
  have hold := h.sawAll k
  cases hm with
  | stay | spawn _ _ | consume _ _ _ _ _ | discard _ _ | push _ _ =>
      exact hold hk
  | abort i hs hi =>
      by_cases hki : k = i
      · subst hki; simp [Stage.sawAll] at hk
      · simp [Function.update_of_ne hki, all_live h hs, Stage.sawAll] at hk
  | join i j hi hj | cleared i hi _ =>
      by_cases hki : k = i
      · subst hki; simp [Stage.sawAll] at hk
      · exact hold (by simpa [Function.update_of_ne hki] using hk)
  | enter i hi =>
      by_cases hki : k = i
      · subst hki; simp [Stage.sawAll] at hk
      · have hle := hold (by simpa [Function.update_of_ne hki] using hk)
        show v.numLive - 1 ≤ 0
        omega
  | sawAll i hi hn => exact hn
  | drained i hi _ | wait i hi | leave i hi _ =>
      exact h.sawAll i (by rw [hi]; rfl)

theorem gone_move (h : Inv v) (hm : Move v v') :
    ∀ i, v'.stage i = .left → v'.numAborting ≤ 0 := by
  intro k hk
  have hold := h.gone k
  cases hm with
  | stay | spawn _ _ | consume _ _ _ _ _ | discard _ _ | push _ _ =>
      exact hold hk
  | abort i hs hi =>
      by_cases hki : k = i
      · subst hki; simp at hk
      · simp [Function.update_of_ne hki, all_live h hs] at hk
  | join i j hi hj | enter i hi | cleared i hi _ | sawAll i hi _
  | drained i hi _ =>
      by_cases hki : k = i
      · subst hki; simp at hk
      · exact hold (by simpa [Function.update_of_ne hki] using hk)
  | wait i hi =>
      by_cases hki : k = i
      · subst hki; simp at hk
      · have hle := hold (by simpa [Function.update_of_ne hki] using hk)
        show v.numAborting - 1 ≤ 0
        omega
  | leave i hi hn => exact hn

theorem entered_move (h : Inv v) (hm : Move v v') :
    ∀ i, v'.log.count (.entered i) = (v'.stage i).entries := by
  intro k
  have hold := h.entered k
  cases hm with
  | stay | spawn _ _ | discard _ _ | push _ _ => exact hold
  | consume j id e hj he =>
      rcases he with rfl | rfl <;> simpa using hold
  | abort i _ hi | join i _ hi _ =>
      by_cases hki : k = i
      · subst hki
        rw [hi] at hold
        simpa [Stage.entries] using hold
      · simpa [Function.update_of_ne hki, List.count_cons, Ne.symm hki] using hold
  | enter i hi | cleared i hi _ | sawAll i hi _ | drained i hi _ | wait i hi
  | leave i hi _ =>
      by_cases hki : k = i
      · subst hki
        rw [hi] at hold
        simpa [Stage.entries] using hold
      · simpa [Function.update_of_ne hki] using hold

/-- What a change of one bag does to the number of copies held. -/
theorem sum_held (v : View n) (id : Nat) (j : Fin n) (m : Multiset Item) :
    ∑ i, (Function.update v.held j m i).count (.task id)
        + (v.held j).count (.task id)
      = ∑ i, (v.held i).count (.task id) + m.count (.task id) :=
  sum_update (Multiset.count (.task id)) v.held j m

/-- Every task that was spawned is held, was run or was cancelled, once. -/
theorem copies_move (h : Inv v) (hm : Move v v') :
    ∀ id, v'.copies id = if id < v'.nextId then 1 else 0 := by
  intro id
  have hold := h.copies id
  cases hm with
  | stay | enter _ _ | cleared _ _ _ | sawAll _ _ _ | drained _ _ _
  | wait _ _ | leave _ _ _ => exact hold
  | abort _ _ _ => simpa [View.copies] using hold
  | spawn i hi =>
      have hsum := sum_held v id i (.task v.nextId ::ₘ v.held i)
      rw [Multiset.count_cons] at hsum
      simp only [View.copies, Item.task.injEq] at hold hsum ⊢
      split_ifs at hold hsum ⊢ <;> omega
  | consume j id' e hj he =>
      have hpos := Multiset.count_pos.mpr hj
      have hsum := sum_held v id j ((v.held j).erase (.task id'))
      by_cases hid : id = id'
      · subst hid
        rw [Multiset.count_erase_self] at hsum
        simp only [View.copies] at hold ⊢
        rcases he with rfl | rfl <;>
          simp only [List.count_cons, beq_self_eq_true, reduceCtorEq,
            beq_iff_eq, if_true, if_false] <;>
          omega
      · rw [Multiset.count_erase_of_ne (by simpa using hid)] at hsum
        simp only [View.copies] at hold ⊢
        rcases he with rfl | rfl <;>
          simp only [List.count_cons, reduceCtorEq, beq_iff_eq,
            Event.ran.injEq, Event.cancelled.injEq, Ne.symm hid, if_false] <;>
          omega
  | join i j _ hj | discard j hj =>
      have hsum := sum_held v id j ((v.held j).erase .abort)
      rw [Multiset.count_erase_of_ne (by simp)] at hsum
      simp only [View.copies, List.count_cons, beq_iff_eq, reduceCtorEq,
        if_false] at hold ⊢
      omega
  | push i hi =>
      have hsum := sum_held v id i (.abort ::ₘ v.held i)
      rw [Multiset.count_cons_of_ne (by simp)] at hsum
      simp only [View.copies] at hold ⊢
      omega

theorem safe_move (h : Inv v) (hm : Move v v') : v'.violated = false := by
  cases hm <;> exact h.safe

/-- **PRESERVATION.** -/
theorem inv_move (h : Inv v) (hm : Move v v') : Inv v' :=
  ⟨holds_move h hm, numLive_move h hm, numAborting_move h hm, begun_move h hm,
    sawAll_move h hm, gone_move h hm, entered_move h hm, copies_move h hm,
    safe_move h hm⟩

theorem started_move (hm : Move v v') (hs : v.started = true) :
    v'.started = true := by
  cases hm <;> first | exact hs | rfl

end Moves

/-! ## What the invariant says -/

section Consequences

variable {v : View n}

/-- While somebody has not said that it entered, nobody drains. -/
theorem Inv.not_live (h : Inv v) {i : Fin n} (hi : (v.stage i).sawAll = true)
    (j : Fin n) : (v.stage j).isLive = 0 := by
  have hst := started_of_entered h (i := i) (by rintro h0; rw [h0] at hi; cases hi)
  have hle := h.sawAll i hi
  rw [h.numLive hst] at hle
  have hz : ∑ j, (v.stage j).isLive = 0 := by omega
  exact Finset.sum_eq_zero_iff.mp hz j (Finset.mem_univ j)

/-- Once somebody left, everybody is past the drain. -/
theorem Inv.not_aborting (h : Inv v) {i : Fin n} (hi : v.stage i = .left)
    (j : Fin n) : v.stage j = .waiting ∨ v.stage j = .left := by
  have hst := started_of_entered h (i := i) (by simp [hi])
  have hle := h.gone i hi
  rw [h.numAborting hst] at hle
  have hz : ∑ j, (v.stage j).isAborting = 0 := by omega
  have hj := Finset.sum_eq_zero_iff.mp hz j (Finset.mem_univ j)
  cases hs : v.stage j <;> simp [hs, Stage.isAborting] at hj ⊢

/-- A thread past the drain holds nothing. -/
theorem Inv.empty (h : Inv v) {j : Fin n}
    (hj : v.stage j = .drained ∨ v.stage j = .waiting ∨ v.stage j = .left) :
    v.held j = 0 := by
  refine Multiset.eq_zero_of_forall_notMem fun x hx => ?_
  have hno := h.holds j x hx
  rcases hj with hj | hj | hj <;> rw [hj] at hno <;> exact hno

/-- Once somebody left nothing is held by anybody. -/
theorem Inv.all_empty (h : Inv v) {i : Fin n} (hi : v.stage i = .left)
    (j : Fin n) : v.held j = 0 :=
  h.empty (Or.inr (h.not_aborting hi j))

end Consequences

end PbRendezvous
