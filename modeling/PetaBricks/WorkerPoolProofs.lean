import Mathlib.Logic.Function.Basic
import Mathlib.Algebra.Order.Ring.Int
import Mathlib.Data.Int.Range
import PetaBricks.TransitionProofs

/-! # The pool of worker threads — `WorkerThreadPool::insert` and `remove`

    A call of `insert` takes the first free slot from the count on and raises the count above
    it; a call of `remove` empties the slot of its thread and lowers the count while the slot
    below it is empty.  Each read, write and compare-and-swap is a step of its own.

    The comparison that lowers the count is with the count alone: a slot that was seen empty
    may have been filled since, by a call that found the count high enough.  And nothing stops
    the count at zero. -/

namespace PbWorkerPool

open PbTransition

variable {W : Type}

/-! ## The calls -/

/-- Where the call for a thread is; `out` and `inside` are between calls. -/
inductive Phase
  | out
  | inside
  /-- `int i = _count` -/
  | start
  /-- the compare-and-swap of slot `i` -/
  | slot (i : ℤ)
  /-- the arguments of the compare-and-swap of the count -/
  | raise (i : ℤ)
  /-- the expected value has been read -/
  | oldRead (i old : ℤ)
  /-- and `std::max` has taken `_count`, by reference -/
  | oldKeep (i old : ℤ)
  /-- the other order: `std::max` has taken `_count` -/
  | maxKeep (i : ℤ)
  | maxRead (i new : ℤ)
  | cas (i old new : ℤ)
  /-- `i < _count` -/
  | scan (i : ℤ)
  /-- `_pool[i] == thread` -/
  | look (i : ℤ)
  /-- `_pool[i] = NULL` -/
  | clear (i : ℤ)
  /-- `t = _count-1` -/
  | shrink
  /-- `_pool[t] == NULL` -/
  | peek (t : ℤ)
  | decrement (t : ℤ)
deriving DecidableEq

/-- The slot that the next step of a call reads. -/
def Phase.index : Phase → Option ℤ
  | .slot i => some i
  | .look i => some i
  | .peek t => some t
  | _ => none

structure Pool (W : Type) where
  pool : ℤ → Option W
  count : ℤ
  phase : W → Phase

/-- A call begins, or takes a step; the order in which it evaluates the arguments of the
    compare-and-swap of the count is open. -/
inductive Act (W : Type)
  | insert (w : W)
  | remove (w : W)
  | step (w : W) (maxFirst : Bool)

variable [DecidableEq W]

def Pool.goto (s : Pool W) (w : W) (p : Phase) : Pool W :=
  { s with phase := Function.update s.phase w p }

def Pool.write (s : Pool W) (i : ℤ) (v : Option W) : Pool W :=
  { s with pool := Function.update s.pool i v }

def Pool.setCount (s : Pool W) (n : ℤ) : Pool W := { s with count := n }

/-- A step of a call; what a slot before the first one holds is not known. -/
def Pool.step (s : Pool W) (w : W) (maxFirst : Bool) : Option (Pool W) :=
  match s.phase w with
  | .out => none
  | .inside => none
  | .start => some (s.goto w (.slot s.count))
  | .slot i =>
      some (if s.pool i = none then (s.write i (some w)).goto w (.raise i)
        else s.goto w (.slot (i + 1)))
  | .raise i =>
      some (if maxFirst then s.goto w (if s.count < i + 1 then .maxRead i (i + 1) else .maxKeep i)
        else s.goto w (.oldRead i s.count))
  | .oldRead i old =>
      some (s.goto w (if s.count < i + 1 then .cas i old (i + 1) else .oldKeep i old))
  | .oldKeep i old => some (s.goto w (.cas i old s.count))
  | .maxKeep i => some (s.goto w (.maxRead i s.count))
  | .maxRead i new => some (s.goto w (.cas i s.count new))
  | .cas i old new =>
      some (if s.count = old then (s.setCount new).goto w .inside else s.goto w (.raise i))
  | .scan i => some (s.goto w (if i < s.count then .look i else .shrink))
  | .look i => some (s.goto w (if s.pool i = some w then .clear i else .scan (i + 1)))
  | .clear i => some ((s.write i none).goto w (.scan (i + 1)))
  | .shrink => some (s.goto w (.peek (s.count - 1)))
  | .peek t =>
      if 0 ≤ t then some (s.goto w (if s.pool t = none then .decrement t else .out)) else none
  | .decrement t => some ((if s.count = t + 1 then s.setCount t else s).goto w .shrink)

def Pool.next (s : Pool W) : Act W → Option (Pool W)
  | .insert w => if s.phase w = .out then some (s.goto w .start) else none
  | .remove w => if s.phase w = .inside then some (s.goto w (.scan 0)) else none
  | .step w maxFirst => s.step w maxFirst

def emptyPool : Pool W := ⟨fun _ => none, 0, fun _ => .out⟩

def threadPool (W : Type) [DecidableEq W] : System (Pool W) (Act W) where
  init s := s = emptyPool
  next := Pool.next

/-! ## No worker is lost -/

/-- `w` is in slot `i`, and in no other. -/
def InSlot (pool : ℤ → Option W) (w : W) (i : ℤ) : Prop := ∀ j, pool j = some w ↔ j = i

/-- No slot before the first one is read; between calls each worker of the pool is in one slot
    below the count, and the other slots are empty. -/
def Pool.Right (s : Pool W) : Prop :=
  (∀ w i, (s.phase w).index = some i → 0 ≤ i) ∧
    ((∀ w, s.phase w = .out ∨ s.phase w = .inside) →
      (∀ w, s.phase w = .inside → ∃ i, 0 ≤ i ∧ i < s.count ∧ InSlot s.pool w i) ∧
        ∀ i, s.count ≤ i → s.pool i = none)

/-- The step does not go wrong: the count is positive where a call of `remove` goes to look at
    the slot below it, and the slots that the count is lowered past are empty. -/
def SoundStep (s : Pool W) : Phase → Prop
  | .shrink => 0 < s.count
  | .decrement t => s.count = t + 1 → s.pool t = none
  | .cas _ old new => s.count = old → ∀ j, new ≤ j → j < old → s.pool j = none
  | _ => True

def Sound (s : Pool W) : Act W → Prop
  | .step w _ => SoundStep s (s.phase w)
  | _ => True

instance (s : Pool W) : ∀ p, Decidable (SoundStep s p)
  | .shrink => inferInstanceAs (Decidable (0 < s.count))
  | .decrement t => inferInstanceAs (Decidable (s.count = t + 1 → s.pool t = none))
  | .cas _ old new =>
      inferInstanceAs (Decidable (s.count = old → ∀ j, new ≤ j → j < old → s.pool j = none))
  | .out | .inside | .start | .slot _ | .raise _ | .oldRead _ _ | .oldKeep _ _ | .maxKeep _
  | .maxRead _ _ | .scan _ | .look _ | .clear _ | .peek _ => isTrue trivial

instance (s : Pool W) : ∀ a, Decidable (Sound s a)
  | .step w _ => inferInstanceAs (Decidable (SoundStep s (s.phase w)))
  | .insert _ | .remove _ => isTrue trivial

/-- No slot holds `w`. -/
def Out (pool : ℤ → Option W) (w : W) : Prop := ∀ j, pool j ≠ some w

/-- What is known about a thread's slot in a phase of its call. -/
def Fits (pool : ℤ → Option W) (count : ℤ) (w : W) : Phase → Prop
  | .out | .start | .shrink => Out pool w
  | .slot i => 0 ≤ i ∧ Out pool w
  | .raise i | .oldRead i _ => 0 ≤ i ∧ InSlot pool w i
  | .oldKeep i _ | .maxKeep i => 0 ≤ i ∧ InSlot pool w i ∧ i < count
  | .maxRead i new | .cas i _ new => 0 ≤ i ∧ InSlot pool w i ∧ i < new
  | .inside => ∃ i, 0 ≤ i ∧ InSlot pool w i ∧ i < count
  | .scan k | .look k => 0 ≤ k ∧ (Out pool w ∨ ∃ i, k ≤ i ∧ InSlot pool w i ∧ i < count)
  | .clear k => 0 ≤ k ∧ InSlot pool w k
  | .peek t | .decrement t => 0 ≤ t ∧ Out pool w

structure Inv (s : Pool W) : Prop where
  count_nonneg : 0 ≤ s.count
  fits : ∀ w, Fits s.pool s.count w (s.phase w)

omit [DecidableEq W] in
/-- What other calls do leaves a thread's slot as it is, and below the count. -/
theorem Fits.frame {pool pool' : ℤ → Option W} {count count' : ℤ} {w : W} {p : Phase}
    (h : Fits pool count w p) (hpool : ∀ j, pool' j = some w ↔ pool j = some w)
    (hcount : ∀ j, pool j = some w → j < count → j < count') : Fits pool' count' w p := by
  have hout : Out pool w → Out pool' w := fun ho j hj => ho j ((hpool j).mp hj)
  have hslot : ∀ {i}, InSlot pool w i → InSlot pool' w i := fun hs j => (hpool j).trans (hs j)
  have hbelow : ∀ {i}, InSlot pool w i → i < count → i < count' := fun {i} hs =>
    hcount i ((hs i).mpr rfl)
  cases p with
  | out | start | shrink => exact hout h
  | slot | peek | decrement => exact ⟨h.1, hout h.2⟩
  | raise | oldRead | clear => exact ⟨h.1, hslot h.2⟩
  | oldKeep | maxKeep => exact ⟨h.1, hslot h.2.1, hbelow h.2.1 h.2.2⟩
  | maxRead | cas => exact ⟨h.1, hslot h.2.1, h.2.2⟩
  | inside =>
      obtain ⟨i, hi, hs, hlt⟩ := h
      exact ⟨i, hi, hslot hs, hbelow hs hlt⟩
  | scan | look =>
      refine ⟨h.1, ?_⟩
      rcases h.2 with ho | ⟨i, hk, hs, hlt⟩
      · exact .inl (hout ho)
      · exact .inr ⟨i, hk, hslot hs, hbelow hs hlt⟩

/-! ## The kinds of steps -/

theorem Inv.goto {s : Pool W} {w : W} {p : Phase} (h : Inv s) (hp : Fits s.pool s.count w p) :
    Inv (s.goto w p) := by
  refine ⟨h.count_nonneg, ?_⟩
  intro w'
  by_cases hw : w' = w
  · subst hw
    show Fits s.pool s.count w' (Function.update s.phase w' p w')
    rw [Function.update_self]
    exact hp
  · show Fits s.pool s.count w' (Function.update s.phase w p w')
    rw [Function.update_of_ne hw]
    exact h.fits w'

/-- A thread fills or empties a slot that no other thread has. -/
theorem Inv.write {s : Pool W} {w : W} {p : Phase} {i : ℤ} {v : Option W} (h : Inv s)
    (hold : ∀ w', w' ≠ w → s.pool i ≠ some w') (hnew : ∀ w', w' ≠ w → v ≠ some w')
    (hp : Fits (s.write i v).pool s.count w p) : Inv ((s.write i v).goto w p) := by
  refine ⟨h.count_nonneg, ?_⟩
  intro w'
  by_cases hw : w' = w
  · subst hw
    show Fits _ s.count w' (Function.update s.phase w' p w')
    rw [Function.update_self]
    exact hp
  · show Fits (Function.update s.pool i v) s.count w' (Function.update s.phase w p w')
    rw [Function.update_of_ne hw]
    refine (h.fits w').frame ?_ fun _ _ hlt => hlt
    intro j
    by_cases hj : j = i
    · subst hj
      rw [Function.update_self]
      exact ⟨fun hv => absurd hv (hnew w' hw), fun hv => absurd hv (hold w' hw)⟩
    · rw [Function.update_of_ne hj]

/-- The count changes, but not past a slot that is filled. -/
theorem Inv.setCount {s : Pool W} {w : W} {p : Phase} {n : ℤ} (h : Inv s) (hn : 0 ≤ n)
    (hpast : ∀ j, n ≤ j → j < s.count → s.pool j = none) (hp : Fits s.pool n w p) :
    Inv ((s.setCount n).goto w p) := by
  refine ⟨hn, ?_⟩
  intro w'
  by_cases hw : w' = w
  · subst hw
    show Fits s.pool n w' (Function.update s.phase w' p w')
    rw [Function.update_self]
    exact hp
  · show Fits s.pool n w' (Function.update s.phase w p w')
    rw [Function.update_of_ne hw]
    refine (h.fits w').frame (fun _ => Iff.rfl) ?_
    intro j hj hlt
    by_contra hge
    rw [hpast j (not_lt.mp hge) hlt] at hj
    cases hj

theorem Inv.step {s t : Pool W} {w : W} {b : Bool} (h : Inv s) (hok : Sound s (.step w b))
    (hstep : s.step w b = some t) : Inv t := by
  have hw := h.fits w
  have hcount := h.count_nonneg
  rw [Pool.step] at hstep
  rw [Sound] at hok
  cases hp : s.phase w with
  | out | inside => rw [hp] at hstep; cases hstep
  | start =>
      rw [hp] at hstep hw
      rw [← Option.some.inj hstep]
      exact h.goto ⟨hcount, hw⟩
  | slot i =>
      rw [hp] at hstep hw
      rw [← Option.some.inj hstep]
      by_cases hnone : s.pool i = none
      · rw [if_pos hnone]
        refine h.write (fun w' _ => by rw [hnone]; exact fun h => nomatch h) ?_ ⟨hw.1, ?_⟩
        · intro w' hne heq
          exact hne (Option.some.inj heq).symm
        · intro j
          show Function.update s.pool i (some w) j = some w ↔ j = i
          by_cases hj : j = i
          · rw [hj, Function.update_self]
            exact iff_of_true rfl rfl
          · rw [Function.update_of_ne hj]
            exact iff_of_false (hw.2 j) hj
      · rw [if_neg hnone]
        exact h.goto ⟨Int.add_nonneg hw.1 Int.one_nonneg, hw.2⟩
  | raise i =>
      rw [hp] at hstep hw
      rw [← Option.some.inj hstep]
      split
      · refine h.goto ?_
        split
        · exact ⟨hw.1, hw.2, Int.lt_succ i⟩
        · rename_i hlt
          exact ⟨hw.1, hw.2, Int.not_lt.mp hlt⟩
      · exact h.goto hw
  | oldRead i old =>
      rw [hp] at hstep hw
      rw [← Option.some.inj hstep]
      refine h.goto ?_
      split
      · exact ⟨hw.1, hw.2, Int.lt_succ i⟩
      · rename_i hlt
        exact ⟨hw.1, hw.2, Int.not_lt.mp hlt⟩
  | oldKeep i old | maxKeep i =>
      rw [hp] at hstep hw
      rw [← Option.some.inj hstep]
      exact h.goto hw
  | maxRead i new =>
      rw [hp] at hstep hw
      rw [← Option.some.inj hstep]
      exact h.goto hw
  | cas i old new =>
      rw [hp] at hstep hw hok
      rw [← Option.some.inj hstep]
      by_cases hold : s.count = old
      · rw [if_pos hold]
        have hnew : 0 ≤ new := hw.1.trans hw.2.2.le
        refine h.setCount hnew ?_ ⟨i, hw⟩
        intro j hj hlt
        exact hok hold j hj (hold ▸ hlt)
      · rw [if_neg hold]
        exact h.goto ⟨hw.1, hw.2.1⟩
  | scan k =>
      rw [hp] at hstep hw
      rw [← Option.some.inj hstep]
      refine h.goto ?_
      split
      · exact hw
      · rename_i hge
        rcases hw.2 with hout | ⟨i, hk, -, hlt⟩
        · exact hout
        · exact absurd (hk.trans_lt hlt) hge
  | look k =>
      rw [hp] at hstep hw
      rw [← Option.some.inj hstep]
      refine h.goto ?_
      by_cases hfound : s.pool k = some w
      · rw [if_pos hfound]
        rcases hw.2 with hout | ⟨i, -, hslot, -⟩
        · exact absurd hfound (hout k)
        · rw [(hslot k).mp hfound]
          exact ⟨(hslot k).mp hfound ▸ hw.1, hslot⟩
      · rw [if_neg hfound]
        refine ⟨Int.add_nonneg hw.1 Int.one_nonneg, ?_⟩
        rcases hw.2 with hout | ⟨i, hk, hslot, hlt⟩
        · exact .inl hout
        · have hne : k ≠ i := fun heq => hfound ((hslot k).mpr heq)
          exact .inr ⟨i, Int.lt_iff_le_and_ne.mpr ⟨hk, hne⟩, hslot, hlt⟩
  | clear k =>
      rw [hp] at hstep hw
      rw [← Option.some.inj hstep]
      refine h.write ?_ (fun _ _ h => nomatch h) ⟨Int.add_nonneg hw.1 Int.one_nonneg, .inl ?_⟩
      · intro w' hne heq
        rw [(hw.2 k).mpr rfl] at heq
        exact hne (Option.some.inj heq).symm
      · intro j
        show Function.update s.pool k none j ≠ some w
        by_cases hj : j = k
        · rw [hj, Function.update_self]
          exact fun h => nomatch h
        · rw [Function.update_of_ne hj]
          exact fun heq => hj ((hw.2 j).mp heq)
  | shrink =>
      rw [hp] at hstep hw hok
      rw [← Option.some.inj hstep]
      exact h.goto ⟨Int.sub_nonneg_of_le hok, hw⟩
  | peek t =>
      rw [hp] at hstep hw
      simp only [if_pos hw.1] at hstep
      rw [← Option.some.inj hstep]
      refine h.goto ?_
      split
      · exact hw
      · exact hw.2
  | decrement t =>
      rw [hp] at hstep hw hok
      rw [← Option.some.inj hstep]
      by_cases htop : s.count = t + 1
      · rw [if_pos htop]
        refine h.setCount hw.1 ?_ hw.2
        intro j hj hlt
        have hjt : j = t := Int.le_antisymm (Int.lt_add_one_iff.mp (htop ▸ hlt)) hj
        rw [hjt]
        exact hok htop
      · rw [if_neg htop]
        exact h.goto hw.2

theorem Inv.next {s t : Pool W} {a : Act W} (h : Inv s) (hok : Sound s a)
    (hnext : s.next a = some t) : Inv t := by
  cases a with
  | insert w =>
      obtain ⟨hp, ht⟩ := Option.ite_none_right_eq_some.mp hnext
      have hw := h.fits w
      rw [hp] at hw
      rw [← Option.some.inj ht]
      exact h.goto hw
  | remove w =>
      obtain ⟨hp, ht⟩ := Option.ite_none_right_eq_some.mp hnext
      have hw := h.fits w
      rw [hp] at hw
      rw [← Option.some.inj ht]
      exact h.goto ⟨le_rfl, .inr hw⟩
  | step w b => exact h.step hok hnext

omit [DecidableEq W] in
theorem Inv.right {s : Pool W} (h : Inv s) : s.Right := by
  constructor
  · intro w i hi
    have hw := h.fits w
    cases hp : s.phase w with
    | slot | look | peek =>
        rw [hp] at hi hw
        rw [← Option.some.inj hi]
        exact hw.1
    | _ => rw [hp] at hi; cases hi
  · intro hrest
    constructor
    · intro w hin
      have hw := h.fits w
      rw [hin] at hw
      obtain ⟨i, hi, hslot, hlt⟩ := hw
      exact ⟨i, hi, hlt, hslot⟩
    · intro i hi
      cases hslot : s.pool i with
      | none => rfl
      | some w =>
          have hw := h.fits w
          rcases hrest w with hp | hp
          · rw [hp] at hw
            exact absurd hslot (hw i)
          · rw [hp] at hw
            obtain ⟨k, -, hk, hlt⟩ := hw
            rw [(hk i).mp hslot] at hi
            exact absurd hlt (Int.not_lt.mpr hi)

/-- **NO WORKER IS LOST** in runs whose steps are sound: in every state that they reach, for
    any number of concurrent calls. -/
theorem right_of_sound {s : Pool W}
    (h : Reachable ((threadPool W).restrict Sound) s) : s.Right := by
  refine Inv.right (Reachable.invariant_restrict Inv h ?_ ?_)
  · rintro s rfl
    exact ⟨le_rfl, fun w j h => nomatch h⟩
  · intro s a t hs hok hnext
    exact hs.next hok hnext

/-- Steps of one call, with the expected value read first. -/
def steps (w : W) (n : ℕ) : List (Act W) := List.replicate n (.step w false)

/-- A worker comes and goes, and another stays. -/
theorem right_of_sound_two : ∃ s, Reachable ((threadPool (Fin 2)).restrict Sound) s ∧
    (s.phase 0 = .inside ∧ s.phase 1 = .out ∧ s.count = 1) ∧ s.Right := by
  obtain ⟨s, hs, hv⟩ := exists_of_exec_map ((threadPool (Fin 2)).restrict Sound)
    (fun s => (s.phase 0, s.phase 1, s.count)) (.inside, .out, 1)
    (.insert 0 :: steps 0 5 ++ .insert 1 :: steps 1 5 ++ .remove 1 :: steps 1 11)
    (s := emptyPool) rfl (by decide)
  exact ⟨s, hs, ⟨congrArg (·.1) hv, congrArg (·.2.1) hv, congrArg (·.2.2) hv⟩, right_of_sound hs⟩

/-! ## Two ways to go wrong -/

/-- Thread `c` has read a count of one.  Thread `b` comes, and empties its slot; thread `c` fills
    it and finds the count high enough.  Then thread `b` lowers the count. -/
def staleDecrement {W : Type} (a b c : W) : List (Act W) :=
  .insert a :: steps a 5 ++ .insert c :: steps c 1 ++ .insert b :: steps b 5 ++
    .remove b :: steps b 8 ++ steps c 5 ++ steps b 3

/-- Thread 2 is in slot 1, and the count is 1, with no call in progress. -/
theorem stale_decrement_loses : ∃ s, Reachable (threadPool (Fin 3)) s ∧ ¬ s.Right := by
  obtain ⟨s, hs, hv⟩ := exists_of_exec_map (threadPool (Fin 3))
    (fun s => (decide (∀ w, s.phase w = .out ∨ s.phase w = .inside), s.pool 1, s.count))
    (true, some 2, 1) (staleDecrement 0 1 2) (s := emptyPool) rfl (by decide)
  refine ⟨s, hs, ?_⟩
  intro hright
  have hrest := of_decide_eq_true (congrArg (·.1) hv)
  have hcount : s.count = 1 := congrArg (·.2.2) hv
  have hslot : s.pool 1 = some 2 := congrArg (·.2.1) hv
  have hempty := (hright.2 hrest).2 1 hcount.le
  rw [hslot] at hempty
  cases hempty

/-- A call that removes the last worker goes on to the slot before the first one. -/
theorem last_removed_looks_before : ∃ s, Reachable (threadPool (Fin 1)) s ∧ ¬ s.Right := by
  obtain ⟨s, hs, hv⟩ := exists_of_exec_map (threadPool (Fin 1)) (fun s => s.phase 0)
    (.peek (-1)) (.insert 0 :: steps 0 5 ++ .remove 0 :: steps 0 8) (s := emptyPool) rfl
    (by decide)
  refine ⟨s, hs, ?_⟩
  intro hright
  have hindex := hright.1 0 (-1) (by rw [hv]; rfl)
  revert hindex
  decide

end PbWorkerPool
