import Mathlib.Tactic.Common

/-! # Stuttering simulation — two machines that show the same

    A machine takes one step after the other, or stops, and every state shows
    something.  `Simulation` relates the states of two machines such that each
    step of the first is some steps of the second, perhaps none, as long as a
    measure of the first machine falls.  Related states then show the same on
    their whole runs, finite or not (`Simulation.shows_iff`), and stop with the
    same, or do not (`Simulation.stops_iff`). -/

namespace PbSimulation

variable {S T O : Type}

/-- A deterministic machine, and what its states show. -/
structure Machine (S O : Type) where
  next : S → Option S
  obs : S → O

namespace Machine

variable (M : Machine S O)

/-- The state after some steps; a machine that has stopped stays where it is. -/
def run : Nat → S → S
  | 0, s => s
  | n + 1, s =>
      match M.next s with
      | some t => run n t
      | none => s

/-- A run from `s` shows `o` at some time. -/
def Shows (s : S) (o : O) : Prop := ∃ n, M.obs (M.run n s) = o

/-- The run from `s` stops, and shows `o` then. -/
def Stops (s : S) (o : O) : Prop := ∃ n, M.next (M.run n s) = none ∧ M.obs (M.run n s) = o

variable {M}

theorem run_succ {s t : S} (h : M.next s = some t) (n : Nat) : M.run (n + 1) s = M.run n t := by
  rw [run, h]

theorem run_stopped {s : S} (h : M.next s = none) (n : Nat) : M.run n s = s := by
  cases n with
  | zero => rfl
  | succ n => rw [run, h]

theorem run_add (m n : Nat) (s : S) : M.run (m + n) s = M.run n (M.run m s) := by
  induction m generalizing s with
  | zero => rw [Nat.zero_add, run]
  | succ m ih =>
      cases h : M.next s with
      | none => rw [run_stopped h, run_stopped h, run_stopped h]
      | some t => rw [Nat.succ_add, run_succ h, run_succ h, ih]

theorem Shows.of_run {s : S} {o : O} (n : Nat) (h : M.Shows (M.run n s) o) : M.Shows s o := by
  obtain ⟨m, hm⟩ := h
  exact ⟨n + m, by rw [run_add, hm]⟩

theorem Stops.of_run {s : S} {o : O} (n : Nat) (h : M.Stops (M.run n s) o) : M.Stops s o := by
  obtain ⟨m, hm⟩ := h
  exact ⟨n + m, by rw [run_add]; exact hm⟩

end Machine

/-- A step from `s` to `s'` is matched by some steps from `t`, which show nothing else on their
    way; where there are none, the measure falls. -/
def Matched (M : Machine S O) (N : Machine T O) (R : S → T → Prop) (measure : S → Nat)
    (s s' : S) (t : T) : Prop :=
  ∃ n, R s' (N.run n t) ∧ (n = 0 ∨ N.next t = none → measure s' < measure s) ∧
    ∀ k ≤ n, N.obs (N.run k t) = M.obs s ∨ N.obs (N.run k t) = M.obs s'

/-- The machine stops, and shows nothing but `o` until then. -/
def Halts (N : Machine T O) (o : O) (t : T) : Prop :=
  ∃ n, N.next (N.run n t) = none ∧ ∀ k ≤ n, N.obs (N.run k t) = o

section Matching

variable {M : Machine S O} {N : Machine T O} {R : S → T → Prop} {measure : S → Nat} {s s' : S}
  {t t' : T}

theorem Matched.stay (hR : R s' t) (ho : N.obs t = M.obs s) (hm : measure s' < measure s) :
    Matched M N R measure s s' t := by
  refine ⟨0, hR, fun _ => hm, ?_⟩
  intro k hk
  obtain rfl := Nat.le_zero.mp hk
  exact .inl ho

/-- A step before those that match. -/
theorem Matched.cons (ht : N.next t = some t') (ho : N.obs t = M.obs s ∨ N.obs t = M.obs s')
    (h : Matched M N R measure s s' t') : Matched M N R measure s s' t := by
  obtain ⟨n, hR, -, hobs⟩ := h
  refine ⟨n + 1, ?_, ?_, ?_⟩
  · rw [Machine.run_succ ht]
    exact hR
  · rintro (hn | hn)
    · cases hn
    · rw [ht] at hn
      cases hn
  · intro k hk
    cases k with
    | zero => exact ho
    | succ k =>
        rw [Machine.run_succ ht]
        exact hobs k (Nat.le_of_succ_le_succ hk)

theorem Matched.once (ht : N.next t = some t') (hR : R s' t')
    (ho : N.obs t = M.obs s ∨ N.obs t = M.obs s') (ho' : N.obs t' = M.obs s') :
    Matched M N R measure s s' t := by
  refine ⟨1, ?_, ?_, ?_⟩
  · rw [Machine.run_succ ht]
    exact hR
  · rintro (hn | hn)
    · cases hn
    · rw [ht] at hn
      cases hn
  · intro k hk
    cases k with
    | zero => exact ho
    | succ k =>
        obtain rfl : k = 0 := Nat.le_zero.mp (Nat.le_of_succ_le_succ hk)
        rw [Machine.run_succ ht]
        exact .inr ho'

theorem Halts.now (ht : N.next t = none) : Halts N (N.obs t) t := by
  refine ⟨0, ht, ?_⟩
  intro k hk
  obtain rfl := Nat.le_zero.mp hk
  rfl

theorem Halts.later {o : O} (ht : N.next t = some t') (ho : N.obs t = o) (h : Halts N o t') :
    Halts N o t := by
  obtain ⟨n, hn, hobs⟩ := h
  refine ⟨n + 1, ?_, ?_⟩
  · rw [Machine.run_succ ht]
    exact hn
  · intro k hk
    cases k with
    | zero => exact ho
    | succ k =>
        rw [Machine.run_succ ht]
        exact hobs k (Nat.le_of_succ_le_succ hk)

end Matching

/-- A simulation that may stutter. -/
structure Simulation (M : Machine S O) (N : Machine T O) where
  R : S → T → Prop
  measure : S → Nat
  obs_eq : ∀ {s t}, R s t → M.obs s = N.obs t
  step : ∀ {s s' t}, R s t → M.next s = some s' → Matched M N R measure s s' t
  stop : ∀ {s t}, R s t → M.next s = none → Halts N (M.obs s) t

namespace Simulation

variable {M : Machine S O} {N : Machine T O} (sim : Simulation M N)

/-- Every state of a run has a related one. -/
theorem exists_related {s : S} {t : T} (h : sim.R s t) (n : Nat) :
    ∃ m, sim.R (M.run n s) (N.run m t) := by
  induction n generalizing s t with
  | zero => exact ⟨0, h⟩
  | succ n ih =>
      cases hs : M.next s with
      | none =>
          rw [Machine.run_stopped hs]
          exact ⟨0, h⟩
      | some s' =>
          obtain ⟨k, hk, -, -⟩ := sim.step h hs
          obtain ⟨m, hm⟩ := ih hk
          refine ⟨k + m, ?_⟩
          rw [Machine.run_succ hs, Machine.run_add]
          exact hm

/-- What the second machine shows, the first one does: induction on how far the second one has
    run, and on the measure while it stands still. -/
theorem shows_of_run {o : O} (k : Nat) {s : S} {t : T} (h : sim.R s t)
    (ho : N.obs (N.run k t) = o) : M.Shows s o := by
  induction k using Nat.strongRecOn generalizing s t with
  | ind k ihk =>
      induction hm : sim.measure s using Nat.strongRecOn generalizing s t with
      | ind m ihm =>
          cases hs : M.next s with
          | none =>
              obtain ⟨n, hstop, hobs⟩ := sim.stop h hs
              refine ⟨0, ?_⟩
              show M.obs s = o
              by_cases hkn : k ≤ n
              · rw [← hobs k hkn, ho]
              · have hrun : N.run k t = N.run n t := by
                  rw [show k = n + (k - n) by omega, Machine.run_add, Machine.run_stopped hstop]
                rw [← hobs n (Nat.le_refl n), ← hrun, ho]
          | some s' =>
              obtain ⟨n, hrel, hfall, hobs⟩ := sim.step h hs
              have hnext : M.Shows s' o → M.Shows s o := by
                intro hshow
                refine .of_run 1 ?_
                rw [Machine.run_succ hs]
                exact hshow
              by_cases hkn : k ≤ n
              · rcases hobs k hkn with heq | heq
                · exact ⟨0, heq.symm.trans ho⟩
                · exact hnext ⟨0, heq.symm.trans ho⟩
              · have hrun : N.run (k - n) (N.run n t) = N.run k t := by
                  rw [← Machine.run_add, show n + (k - n) = k by omega]
                by_cases hn : n = 0
                · subst hn
                  exact hnext (ihm _ (hm ▸ hfall (.inl rfl)) hrel ho rfl)
                · exact hnext (ihk (k - n) (by omega) hrel (by rw [hrun, ho]))

/-- **THE SAME IS SHOWN** on the whole runs from related states. -/
theorem shows_iff {s : S} {t : T} (h : sim.R s t) (o : O) : M.Shows s o ↔ N.Shows t o := by
  constructor
  · rintro ⟨n, hn⟩
    obtain ⟨m, hm⟩ := sim.exists_related h n
    exact ⟨m, (sim.obs_eq hm).symm.trans hn⟩
  · rintro ⟨k, hk⟩
    exact sim.shows_of_run k h hk

theorem stops_of_stops {s : S} {t : T} (h : sim.R s t) {o : O} (hs : M.Stops s o) :
    N.Stops t o := by
  obtain ⟨n, hstop, ho⟩ := hs
  obtain ⟨m, hm⟩ := sim.exists_related h n
  obtain ⟨k, hk, hobs⟩ := sim.stop hm hstop
  exact .of_run m ⟨k, hk, (hobs k (Nat.le_refl k)).trans ho⟩

/-- The first machine cannot run on while the second one has stopped. -/
theorem stops_of_stopped {s : S} {t : T} (h : sim.R s t) (ht : N.next t = none) :
    M.Stops s (N.obs t) := by
  induction hm : sim.measure s using Nat.strongRecOn generalizing s with
  | ind m ihm =>
      cases hs : M.next s with
      | none => exact ⟨0, hs, sim.obs_eq h⟩
      | some s' =>
          obtain ⟨n, hrel, hfall, -⟩ := sim.step h hs
          rw [Machine.run_stopped ht] at hrel
          refine .of_run 1 ?_
          rw [Machine.run_succ hs]
          exact ihm _ (hm ▸ hfall (.inr ht)) hrel rfl

theorem stops_of_run {o : O} (k : Nat) {s : S} {t : T} (h : sim.R s t)
    (hstop : N.next (N.run k t) = none) (ho : N.obs (N.run k t) = o) : M.Stops s o := by
  induction k using Nat.strongRecOn generalizing s t with
  | ind k ihk =>
      induction hm : sim.measure s using Nat.strongRecOn generalizing s t with
      | ind m ihm =>
          cases hs : M.next s with
          | none =>
              obtain ⟨n, hn, hobs⟩ := sim.stop h hs
              -- a machine stops in one state only
              have hrun : N.run k t = N.run n t := by
                rw [← Machine.run_stopped hstop n, ← Machine.run_add, Nat.add_comm,
                  Machine.run_add, Machine.run_stopped hn]
              refine ⟨0, hs, ?_⟩
              show M.obs s = o
              rw [← hobs n (Nat.le_refl n), ← hrun, ho]
          | some s' =>
              obtain ⟨n, hrel, hfall, -⟩ := sim.step h hs
              have hnext : M.Stops s' o → M.Stops s o := by
                intro hs'
                refine .of_run 1 ?_
                rw [Machine.run_succ hs]
                exact hs'
              by_cases hkn : k ≤ n
              · have hrun : N.run n t = N.run k t := by
                  rw [show n = k + (n - k) by omega, Machine.run_add, Machine.run_stopped hstop]
                rw [hrun] at hrel
                rw [← ho]
                rw [← ho] at hnext
                exact hnext (sim.stops_of_stopped hrel hstop)
              · have hrun : N.run (k - n) (N.run n t) = N.run k t := by
                  rw [← Machine.run_add, show n + (k - n) = k by omega]
                by_cases hn : n = 0
                · subst hn
                  exact hnext (ihm _ (hm ▸ hfall (.inl rfl)) hrel hstop ho rfl)
                · refine hnext (ihk (k - n) (by omega) hrel ?_ ?_)
                  · rw [hrun]
                    exact hstop
                  · rw [hrun, ho]

/-- **THE SAME END**: the runs from related states stop with the same, or run on both. -/
theorem stops_iff {s : S} {t : T} (h : sim.R s t) (o : O) : M.Stops s o ↔ N.Stops t o := by
  constructor
  · exact sim.stops_of_stops h
  · rintro ⟨k, hk, ho⟩
    exact sim.stops_of_run k h hk ho

end Simulation

end PbSimulation
