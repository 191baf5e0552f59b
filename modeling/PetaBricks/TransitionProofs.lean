import Mathlib.Data.List.Basic

/-! # Transition systems — invariants over every interleaving

    A concurrent program is a partial step function: in state `s` the labelled
    action `a` either cannot happen (`none`) or leads to exactly one state.  The
    label carries every scheduling choice, so a run is a list of labels, and a
    property of all interleavings is a property of all label lists.

    This file has the rules the developments below are built from: an initial,
    step-preserved predicate holds of every reachable state
    (`Reachable.invariant`); the same under a side condition on the steps
    (`Reachable.invariant_restrict`); a measure that some run always lowers leads
    to a goal (`exists_run_of_descent`); and a run of a refined system projects
    to a run of the system it refines (`Refines.reachable`). -/

namespace PbTransition

variable {S A S' A' : Type}

/-- A labelled transition system with partial deterministic steps. -/
structure System (S A : Type) where
  init : S → Prop
  next : S → A → Option S

/-- `RunOf sys s as t`: from `s` the labels `as`, taken in order, lead to `t`. -/
inductive RunOf (sys : System S A) : S → List A → S → Prop where
  | nil (s : S) : RunOf sys s [] s
  | snoc {s t u : S} {as : List A} {a : A} :
      RunOf sys s as t → sys.next t a = some u → RunOf sys s (as ++ [a]) u

/-- The states some run from an initial state ends in. -/
def Reachable (sys : System S A) (t : S) : Prop :=
  ∃ s as, sys.init s ∧ RunOf sys s as t

/-- Run the labels, stopping at the first one that cannot happen. -/
def exec (sys : System S A) : S → List A → Option S
  | s, [] => some s
  | s, a :: as => (sys.next s a).bind (fun t => exec sys t as)

/-- Prepending a step to a run. -/
theorem RunOf.cons {sys : System S A} {s t u : S} {a : A} {as : List A}
    (h : sys.next s a = some t) (hr : RunOf sys t as u) :
    RunOf sys s (a :: as) u := by
  induction hr with
  | nil => exact RunOf.snoc (RunOf.nil s) h
  | snoc _ hstep ih => exact ih.snoc hstep

/-- Runs compose. -/
theorem RunOf.append {sys : System S A} {s t u : S} {as bs : List A}
    (h1 : RunOf sys s as t) (h2 : RunOf sys t bs u) :
    RunOf sys s (as ++ bs) u := by
  induction h2 with
  | nil => rw [List.append_nil]; exact h1
  | snoc _ hstep ih =>
      rw [← List.append_assoc]
      exact RunOf.snoc ih hstep

/-- What `exec` computes is a run. -/
theorem runOf_of_exec {sys : System S A} :
    ∀ {as : List A} {s t : S}, exec sys s as = some t → RunOf sys s as t := by
  intro as
  induction as with
  | nil =>
      intro s t h
      have hst : s = t := Option.some.inj h
      subst hst
      exact RunOf.nil s
  | cons a as ih =>
      intro s t h
      rw [exec] at h
      cases hn : sys.next s a with
      | none => rw [hn] at h; exact nomatch h
      | some u =>
          rw [hn] at h
          exact RunOf.cons hn (ih h)

theorem Reachable.of_exec {sys : System S A} {s t : S} {as : List A}
    (hs : sys.init s) (h : exec sys s as = some t) : Reachable sys t :=
  ⟨s, as, hs, runOf_of_exec h⟩

/-- What can be read off the end of a computed run holds of a reachable
    state. -/
theorem exists_of_exec_map (sys : System S A) {B : Type} (f : S → B) (v : B)
    (as : List A) {s : S} (hs : sys.init s)
    (h : (exec sys s as).map f = some v) : ∃ t, Reachable sys t ∧ f t = v := by
  obtain ⟨t, ht, hv⟩ := Option.map_eq_some_iff.mp h
  exact ⟨t, Reachable.of_exec hs ht, hv⟩

theorem Reachable.of_init {sys : System S A} {s : S} (hs : sys.init s) :
    Reachable sys s :=
  ⟨s, [], hs, RunOf.nil s⟩

theorem Reachable.step {sys : System S A} {t u : S} {a : A}
    (h : Reachable sys t) (hstep : sys.next t a = some u) :
    Reachable sys u := by
  obtain ⟨s, as, hs, hr⟩ := h
  exact ⟨s, as ++ [a], hs, RunOf.snoc hr hstep⟩

/-- **RUN RULE**: what holds at the start of a run and is preserved by its
    steps holds at its end. -/
theorem RunOf.invariant {sys : System S A} (Inv : S → Prop) {s t : S}
    {as : List A} (hr : RunOf sys s as t)
    (hstep : ∀ s a t, Inv s → sys.next s a = some t → Inv t) (h0 : Inv s) :
    Inv t := by
  induction hr with
  | nil => exact h0
  | snoc _ hn ih => exact hstep _ _ _ ih hn

/-- **INVARIANT RULE**: initial and preserved means always. -/
theorem Reachable.invariant {sys : System S A} (Inv : S → Prop) {t : S}
    (h : Reachable sys t) (hinit : ∀ s, sys.init s → Inv s)
    (hstep : ∀ s a t, Inv s → sys.next s a = some t → Inv t) : Inv t := by
  obtain ⟨s, as, hs, hr⟩ := h
  exact hr.invariant Inv hstep (hinit s hs)

theorem RunOf.single {sys : System S A} {s t : S} {a : A}
    (h : sys.next s a = some t) : RunOf sys s [a] t :=
  RunOf.snoc (RunOf.nil s) h

/-- **DESCENT RULE**: if from every state of `P` that is no goal some run leads to
    a smaller state of `P`, then some run leads to a goal. -/
theorem exists_run_of_descent (sys : System S A) (P Goal : S → Prop)
    (m : S → Nat)
    (hdown : ∀ s, P s → Goal s ∨ ∃ as t, RunOf sys s as t ∧ P t ∧ m t < m s)
    (s : S) (hs : P s) : ∃ as t, RunOf sys s as t ∧ P t ∧ Goal t := by
  induction hm : m s using Nat.strongRecOn generalizing s with
  | _ k ih =>
      rcases hdown s hs with hgoal | ⟨as, t, hr, ht, hlt⟩
      · exact ⟨[], s, RunOf.nil s, hs, hgoal⟩
      · obtain ⟨bs, u, hr', hu, hgoal⟩ := ih (m t) (hm ▸ hlt) t ht rfl
        exact ⟨as ++ bs, u, hr.append hr', hu, hgoal⟩

/-- The system that takes only the steps a side condition allows. -/
def System.restrict (sys : System S A) (ok : S → A → Prop)
    [∀ s a, Decidable (ok s a)] : System S A where
  init := sys.init
  next := fun s a => if ok s a then sys.next s a else none

theorem restrict_next {sys : System S A} {ok : S → A → Prop}
    [∀ s a, Decidable (ok s a)] {s t : S} {a : A}
    (h : (sys.restrict ok).next s a = some t) :
    ok s a ∧ sys.next s a = some t := by
  have h' : (if ok s a then sys.next s a else none) = some t := h
  by_cases hok : ok s a
  · rw [if_pos hok] at h'; exact ⟨hok, h'⟩
  · rw [if_neg hok] at h'; exact nomatch h'

/-- **GUARDED INVARIANT RULE**: in runs whose steps all meet `ok`, a predicate
    that such steps preserve holds throughout. -/
theorem Reachable.invariant_restrict {sys : System S A} {ok : S → A → Prop}
    [∀ s a, Decidable (ok s a)] (Inv : S → Prop) {t : S}
    (h : Reachable (sys.restrict ok) t) (hinit : ∀ s, sys.init s → Inv s)
    (hstep : ∀ s a t, Inv s → ok s a → sys.next s a = some t → Inv t) :
    Inv t :=
  Reachable.invariant Inv h hinit
    (fun s a u hs hn => hstep s a u hs (restrict_next hn).1 (restrict_next hn).2)

/-- `Refines fine coarse abs`: every step of the fine system is, seen through
    `abs`, a step of the coarse one or no change at all. -/
structure Refines (fine : System S A) (coarse : System S' A') (abs : S → S') :
    Prop where
  init : ∀ s, fine.init s → coarse.init (abs s)
  step : ∀ s a t, fine.next s a = some t →
    abs t = abs s ∨ ∃ a', coarse.next (abs s) a' = some (abs t)

/-- **REFINEMENT RULE**: reachable states project to reachable states. -/
theorem Refines.reachable {fine : System S A} {coarse : System S' A'}
    {abs : S → S'} (h : Refines fine coarse abs) {t : S}
    (ht : Reachable fine t) : Reachable coarse (abs t) := by
  refine Reachable.invariant (fun u => Reachable coarse (abs u)) ht
    (fun s hs => Reachable.of_init (h.init s hs)) ?_
  intro s a u hs hn
  rcases h.step s a u hn with heq | ⟨a', ha'⟩
  · show Reachable coarse (abs u)
    rw [heq]; exact hs
  · exact hs.step ha'

end PbTransition
