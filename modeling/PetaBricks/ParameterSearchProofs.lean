import PetaBricks.IterationOrderProofs
import Mathlib.Order.WithBot
import Mathlib.Algebra.Order.Ring.Rat
import Mathlib.Logic.Function.Iterate

/-! # Parameter search — `optimizeParameter`

    A scan of the range by a step, and then one of the window around the best value by a step
    that is smaller by the branch factor, until the step is one.  The scan goes on to the
    first value that is not below the end, so a step that does not divide the range runs over
    it; and the window is scanned from its beginning, so a step that does not divide the one
    before misses the best value of that one.  The search does what is asked of it exactly if
    each step divides the one before, and the first the range. -/

namespace PbParameterSearch

open PbIterationLoop PbOdometer

/-- A time; the largest is that of the `double`s. -/
abbrev Cost := WithTop ℚ

/-- What a search did: the values it set the tunable to, the ones it measured, and what it
    returned (nothing stands for the -1 of an empty range). -/
structure Search where
  sets : List Int
  measured : List Int
  result : Option Cost
  deriving DecidableEq

/-- A division by zero. -/
inductive Error
  | division
  deriving DecidableEq

/-- One value of the scan: `best` and `bestVal`. -/
def improve (cost : Int → Cost) (b : Int × Cost) (n : Int) : Int × Cost :=
  if cost n ≤ b.2 then (n, cost n) else b

/-- `optimizeParameter(tunable, min, max, step)` with `SEARCH_BRANCH_FACTOR`, on a budget. -/
def optimizeParameter (branch : Int) (cost : Int → Cost) :
    Nat → Int → Int → Int → Option (Except Error Search)
  | 0, _, _, _ => none
  | fuel + 1, min, max, step =>
      if max ≤ min then some (.ok ⟨[], [], none⟩)
      else if step < 0 ∧ branch = 0 then some (.error .division)
      else
        let step := if step < 0 then (max - min).tdiv branch else step
        let step := if step ≤ 0 then 1 else step
        ((beginFor min (max + step) step).values fuel).bind fun ns =>
          let best := ns.foldl (improve cost) (max, ⊤)
          if step > 1 then
            if branch = 0 then some (.error .division)
            else
              let newStep := step.tdiv branch
              let newMin := best.1 - step
              let newMax := best.1 + step
              let newMin := if newMin < min then min else newMin
              let newMax := if newMax > max then max else newMax
              (optimizeParameter branch cost fuel newMin newMax newStep).map
                (Except.map fun s => ⟨ns ++ s.sets, ns ++ s.measured, s.result⟩)
          else some (.ok ⟨ns ++ [best.1], ns, some best.2⟩)

/-- `optimizeParameter(param)` with `GRAPH_MIN` and `GRAPH_MAX`. -/
def search (branch : Int) (cost : Int → Cost) (fuel : Nat) (min max : Int) :
    Option (Except Error Search) :=
  if branch = 0 then some (.error .division)
  else optimizeParameter branch cost fuel min max ((max - min).tdiv branch)

/-- The search ends, keeps the tunable in the range, and leaves it at a value whose cost it
    returns and no measured value is cheaper than. -/
def Right (branch min max : Int) (cost : Int → Cost) : Prop :=
  ∃ fuel s v, search branch cost fuel min max = some (.ok s) ∧
    (∀ n ∈ s.sets, min ≤ n ∧ n ≤ max) ∧
    s.sets.getLast? = some v ∧ s.result = some (cost v) ∧ ∀ n ∈ s.measured, cost v ≤ cost n

/-- The next step, by the branch factor. -/
def next (branch s : Int) : Int := if s.tdiv branch ≤ 0 then 1 else s.tdiv branch

/-- Each step divides the one before, the range being the one before the first. -/
structure Divides (branch span : Int) : Prop where
  ne_zero : branch ≠ 0
  one : branch = 1 → span = 1
  dvd : ∀ i, (next branch)^[i + 1] span ∣ (next branch)^[i] span

/-! ## One scan -/

/-- The values of a scan. -/
def scanned (min max step : Int) : List Int :=
  Dimension.loopValues ⟨true, min, max + step, step⟩

section Scan

variable {min max step : Int}

theorem scan_proper (h : min < max) (hs : 1 ≤ step) :
    Dimension.Proper ⟨true, min, max + step, step⟩ := ⟨by simp only; omega, hs⟩

theorem values_eq (h : min < max) (hs : 1 ≤ step) {fuel : Nat}
    (hfuel : (scanned min max step).length < fuel) :
    (beginFor min (max + step) step).values fuel = some (scanned min max step) :=
  Loop.Takes.values (Dimension.takes_genLoop (scan_proper h hs)) hfuel

theorem values_unique (h : min < max) (hs : 1 ≤ step) {fuel : Nat} {ns : List Int}
    (hns : (beginFor min (max + step) step).values fuel = some ns) : ns = scanned min max step :=
  (Loop.takes_of_exec hns).unique (Dimension.takes_genLoop (scan_proper h hs))

theorem mem_scanned {v : Int} : v ∈ scanned min max step ↔
    ∃ k < (Dimension.turns ⟨true, min, max + step, step⟩) + 1, v = min + step * k := by
  rw [scanned, Dimension.mem_loopValues]
  simp only [if_true]

theorem scanned_le (h : min < max) (hs : 1 ≤ step) {v : Int} (hv : v ∈ scanned min max step) :
    min ≤ v ∧ v < max + step := by
  obtain ⟨k, hk, rfl⟩ := mem_scanned.mp hv
  have hmul := Dimension.mul_le (scan_proper h hs) hk
  have hnonneg : 0 ≤ step * k := Int.mul_nonneg (by omega) (Int.natCast_nonneg k)
  simp only at hmul
  omega

/-- Every multiple of the step from the beginning on is scanned, up to the end. -/
theorem mem_scanned_of_dvd (h : min < max) (hs : 1 ≤ step) {v : Int} (hmin : min ≤ v)
    (hmax : v ≤ max) (hdvd : step ∣ v - min) : v ∈ scanned min max step := by
  obtain ⟨q, hq⟩ := hdvd
  have hlt := (Dimension.turns_spec (scan_proper h hs)).2
  simp only at hlt
  have hqpos : 0 ≤ q := by
    by_contra hneg
    have : step * q < 0 := Int.mul_neg_of_pos_of_neg (by omega) (by omega)
    omega
  obtain ⟨k, rfl⟩ := Int.eq_ofNat_of_zero_le hqpos
  refine mem_scanned.mpr ⟨k, ?_, by omega⟩
  by_contra hge
  have hmul : step * (Dimension.turns ⟨true, min, max + step, step⟩ + 1 : Nat) ≤ step * (k : Int) :=
    Int.mul_le_mul_of_nonneg_left (by omega) (by omega)
  push_cast at hmul
  rw [Int.mul_add, Int.mul_one] at hmul
  omega

theorem min_mem_scanned (h : min < max) (hs : 1 ≤ step) : min ∈ scanned min max step :=
  mem_scanned_of_dvd h hs le_rfl h.le ⟨0, by omega⟩

/-- The scan stays in the range if and only if the step divides it. -/
theorem scanned_le_max_iff (h : min < max) (hs : 1 ≤ step) :
    (∀ v ∈ scanned min max step, v ≤ max) ↔ step ∣ max - min := by
  obtain ⟨hle, hlt⟩ := Dimension.turns_spec (scan_proper h hs)
  simp only at hle hlt
  constructor
  · intro hall
    have hlast := hall _ (mem_scanned.mpr ⟨_, Nat.lt_succ_self _, rfl⟩)
    exact ⟨(Dimension.turns ⟨true, min, max + step, step⟩ : Nat), by omega⟩
  · rintro ⟨q, hq⟩ v hv
    obtain ⟨k, hk, rfl⟩ := mem_scanned.mp hv
    have hv' := (scanned_le h hs hv).2
    -- a multiple of the step below the end and a step is not beyond the end
    have hlt' : step * k < step * (q + 1) := by
      rw [Int.mul_add, Int.mul_one]
      omega
    have hk' : (k : Int) < q + 1 := Int.lt_of_mul_lt_mul_left hlt' (by omega)
    have hmul : step * k ≤ step * q := Int.mul_le_mul_of_nonneg_left (by omega) (by omega)
    omega

end Scan

/-- The best value is one of the scanned, and none of these is cheaper. -/
theorem improve_best {cost : Int → Cost} {ns : List Int} (hne : ns ≠ []) (m : Int) :
    (ns.foldl (improve cost) (m, ⊤)).1 ∈ ns ∧
    (ns.foldl (improve cost) (m, ⊤)).2 = cost (ns.foldl (improve cost) (m, ⊤)).1 ∧
    ∀ n ∈ ns, cost (ns.foldl (improve cost) (m, ⊤)).1 ≤ cost n := by
  have hfold : ∀ (ns : List Int) (b : Int), ∃ v, ns.foldl (improve cost) (b, cost b) = (v, cost v) ∧
      (v = b ∨ v ∈ ns) ∧ cost v ≤ cost b ∧ ∀ n ∈ ns, cost v ≤ cost n := by
    intro ns
    induction ns with
    | nil => exact fun b => ⟨b, rfl, .inl rfl, le_rfl, nofun⟩
    | cons n ns ih =>
        intro b
        rw [List.foldl_cons, improve]
        by_cases hle : cost n ≤ cost b
        · rw [if_pos hle]
          obtain ⟨v, hv, hmem, hn, hns⟩ := ih n
          refine ⟨v, hv, .inr (List.mem_cons.mpr hmem), hn.trans hle, ?_⟩
          exact List.forall_mem_cons.mpr ⟨hn, hns⟩
        · rw [if_neg hle]
          obtain ⟨v, hv, hmem, hb, hns⟩ := ih b
          refine ⟨v, hv, hmem.imp id (List.mem_cons_of_mem _), hb, ?_⟩
          exact List.forall_mem_cons.mpr ⟨hb.trans (not_le.mp hle).le, hns⟩
  cases ns with
  | nil => exact absurd rfl hne
  | cons n ns =>
      rw [List.foldl_cons, improve, if_pos le_top]
      obtain ⟨v, hv, hmem, hn, hns⟩ := hfold ns n
      rw [hv]
      exact ⟨List.mem_cons.mpr hmem, rfl, List.forall_mem_cons.mpr ⟨hn, hns⟩⟩

/-! ## Steps -/

theorem next_pos (branch s : Int) : 1 ≤ next branch s := by
  rw [next]
  split <;> omega

/-- A step of one stays one. -/
theorem next_one {branch : Int} (h : branch ≠ 1) : next branch 1 = 1 := by
  rw [next]
  split
  · rfl
  · next hpos =>
      rcases lt_trichotomy branch 0 with hneg | hzero | hb
      · have hle : (1 : Int).tdiv branch ≤ 0 :=
          Int.tdiv_nonpos_of_nonneg_of_nonpos (by omega) hneg.le
        exact absurd hle hpos
      · rw [hzero, Int.tdiv_zero] at hpos
        exact absurd le_rfl hpos
      · rw [Int.tdiv_eq_zero_of_lt (by omega) (by omega)] at hpos
        exact absurd le_rfl hpos

theorem next_lt {branch s : Int} (hb : 2 ≤ branch) (hs : 1 < s) : next branch s < s := by
  rw [next, Int.tdiv_eq_ediv_of_nonneg (by omega)]
  split
  · exact hs
  · exact Int.ediv_lt_self_of_pos_of_ne_one (by omega) (by omega)

theorem next_of_neg {branch s : Int} (hb : branch < 0) (hs : 1 ≤ s) : next branch s = 1 := by
  rw [next, if_pos (Int.tdiv_nonpos_of_nonneg_of_nonpos (by omega) hb.le)]

/-! ## One call -/

section Call

variable {branch : Int} {cost : Int → Cost} {min max step : Int}

/-- The best value of a scan. -/
def best (cost : Int → Cost) (min max step : Int) : Int :=
  ((scanned min max step).foldl (improve cost) (max, ⊤)).1

theorem best_spec (cost : Int → Cost) (h : min < max) (hs : 1 ≤ step) : best cost min max step ∈ scanned min max step ∧
    ((scanned min max step).foldl (improve cost) (max, ⊤)).2 = cost (best cost min max step) ∧
    ∀ n ∈ scanned min max step, cost (best cost min max step) ≤ cost n :=
  improve_best (List.ne_nil_of_mem (min_mem_scanned h hs)) max

/-- The window around the best value. -/
def newMin (cost : Int → Cost) (min max step : Int) : Int :=
  if best cost min max step - step < min then min else best cost min max step - step

def newMax (cost : Int → Cost) (min max step : Int) : Int :=
  if best cost min max step + step > max then max else best cost min max step + step

theorem window_spec (cost : Int → Cost) (h : min < max) (hs : 1 ≤ step) :
    newMin cost min max step < newMax cost min max step ∧ min ≤ newMin cost min max step ∧
      newMax cost min max step ≤ max := by
  obtain ⟨hle, hlt⟩ := scanned_le h hs (best_spec cost h hs).1
  rw [newMin, newMax]
  split <;> split <;> omega

theorem call_succ {fuel : Nat} (h : min < max) (hs : 1 ≤ step) :
    optimizeParameter branch cost (fuel + 1) min max step =
      ((beginFor min (max + step) step).values fuel).bind fun ns =>
        if step > 1 then
          if branch = 0 then some (.error .division)
          else
            let best := ns.foldl (improve cost) (max, ⊤)
            (optimizeParameter branch cost fuel
              (if best.1 - step < min then min else best.1 - step)
              (if best.1 + step > max then max else best.1 + step) (step.tdiv branch)).map
                (Except.map fun s => ⟨ns ++ s.sets, ns ++ s.measured, s.result⟩)
        else some (.ok ⟨ns ++ [(ns.foldl (improve cost) (max, ⊤)).1], ns,
          some (ns.foldl (improve cost) (max, ⊤)).2⟩) := by
  rw [optimizeParameter, if_neg (not_le.mpr h), if_neg (by omega)]
  have hneg : ¬ step < 0 := by omega
  have hnonpos : ¬ step ≤ 0 := by omega
  simp only [if_neg hneg, if_neg hnonpos]

/-- The last call. -/
theorem call_one {fuel : Nat} (h : min < max) (hfuel : (scanned min max 1).length < fuel) :
    optimizeParameter branch cost (fuel + 1) min max 1 =
      some (.ok ⟨scanned min max 1 ++ [best cost min max 1], scanned min max 1,
        some (cost (best cost min max 1))⟩) := by
  rw [call_succ h le_rfl, values_eq h le_rfl hfuel, ← (best_spec cost h le_rfl).2.1]
  rfl

/-- A call that is not the last. -/
theorem call_step {fuel : Nat} (hb : branch ≠ 0) (h : min < max) (hs : 1 < step)
    (hfuel : (scanned min max step).length < fuel) :
    optimizeParameter branch cost (fuel + 1) min max step =
      (optimizeParameter branch cost fuel (newMin cost min max step) (newMax cost min max step)
        (step.tdiv branch)).map (Except.map fun s =>
          ⟨scanned min max step ++ s.sets, scanned min max step ++ s.measured, s.result⟩) := by
  rw [call_succ h hs.le, values_eq h hs.le hfuel, Option.bind_some, if_pos hs, if_neg hb]
  rfl

/-- The division by the branch factor gives the next step, or what stands for it. -/
theorem call_tdiv {fuel : Nat} {span : Int} (hspan : 0 ≤ span) (hb : 1 ≤ branch) :
    optimizeParameter branch cost fuel min max (span.tdiv branch) =
      optimizeParameter branch cost fuel min max (next branch span) := by
  have hnonneg : 0 ≤ span.tdiv branch := Int.tdiv_nonneg hspan (by omega)
  rw [next]
  split
  · next hle =>
      have hzero : span.tdiv branch = 0 := by omega
      rw [hzero]
      cases fuel with
      | zero => rfl
      | succ fuel =>
          rw [optimizeParameter, optimizeParameter]
          simp
  · rfl

/-- What a call with a result has scanned. -/
theorem call_sets {fuel : Nat} {s : Search} (h : min < max) (hs : 1 ≤ step)
    (hrun : optimizeParameter branch cost (fuel + 1) min max step = some (.ok s)) :
    (∀ n ∈ scanned min max step, n ∈ s.sets) ∧ (1 < step → ∃ s',
      optimizeParameter branch cost fuel (newMin cost min max step) (newMax cost min max step)
        (step.tdiv branch) = some (.ok s') ∧ ∀ n ∈ s'.sets, n ∈ s.sets) := by
  rw [call_succ h hs] at hrun
  obtain ⟨ns, hns, hrun⟩ := Option.bind_eq_some_iff.mp hrun
  have hns := values_unique h hs hns
  subst hns
  by_cases hone : 1 < step
  · rw [if_pos hone] at hrun
    by_cases hb : branch = 0
    · rw [if_pos hb] at hrun
      cases hrun
    · rw [if_neg hb] at hrun
      obtain ⟨r, hr, hrun⟩ := Option.map_eq_some_iff.mp hrun
      cases r with
      | error e => cases hrun
      | ok s' =>
          cases hrun
          exact ⟨fun n hn => List.mem_append_left _ hn,
            fun _ => ⟨s', hr, fun n hn => List.mem_append_right _ hn⟩⟩
  · rw [if_neg hone] at hrun
    cases hrun
    exact ⟨fun n hn => List.mem_append_left _ hn, fun hlt => absurd hlt hone⟩

end Call

/-! ## What the steps allow -/

/-- **A SEARCH WITH DIVIDING STEPS IS RIGHT.** -/
theorem call_right {branch : Int} (cost : Int → Cost) : ∀ (k : Nat) {min max step : Int},
    step.toNat ≤ k → min < max → 1 ≤ step → step = 1 ∨ 2 ≤ branch → step ∣ max - min →
    (∀ i, (next branch)^[i + 1] step ∣ (next branch)^[i] step) →
    ∃ N, ∀ fuel ≥ N, ∃ s v, optimizeParameter branch cost fuel min max step = some (.ok s) ∧
      (∀ n ∈ s.sets, min ≤ n ∧ n ≤ max) ∧ s.sets.getLast? = some v ∧
      s.result = some (cost v) ∧ (∀ n ∈ s.measured, cost v ≤ cost n) ∧
      ∀ n ∈ scanned min max step, n ∈ s.measured := by
  intro k
  induction k with
  | zero => intro min max step hk _ hs; omega
  | succ k ih =>
      intro min max step hk h hs hbranch hdvd hchain
      have hrange : ∀ n ∈ scanned min max step, min ≤ n ∧ n ≤ max := fun n hn =>
        ⟨(scanned_le h hs hn).1, (scanned_le_max_iff h hs).mpr hdvd n hn⟩
      obtain ⟨hbest, -, hbestle⟩ := best_spec cost h hs
      by_cases hone : step = 1
      · subst hone
        refine ⟨(scanned min max 1).length + 2, fun fuel hfuel => ?_⟩
        obtain ⟨fuel, rfl⟩ := Nat.exists_eq_add_of_le' (m := 1) (n := fuel) (by omega)
        refine ⟨_, best cost min max 1, call_one h (by omega), ?_, ?_, rfl, hbestle,
          fun n hn => hn⟩
        · intro n hn
          rcases List.mem_append.mp hn with hn | hn
          · exact hrange n hn
          · exact List.mem_singleton.mp hn ▸ hrange _ hbest
        · exact List.getLast?_concat
      · have hb : 2 ≤ branch := hbranch.resolve_left hone
        have hstep : 1 < step := by omega
        obtain ⟨hwindow, hmin, hmax⟩ := window_spec cost h hs
        have hnext := next_lt hb hstep
        have hnextdvd : next branch step ∣ step := hchain 0
        have hnextpos := next_pos branch step
        obtain ⟨hbmin, hbmax⟩ := hrange _ hbest
        have hbdvd : step ∣ best cost min max step - min := by
          obtain ⟨j, -, hj⟩ := mem_scanned.mp hbest
          exact ⟨j, by omega⟩
        -- the window begins at the best value or a step before it, and ends likewise
        have hnewMin : newMin cost min max step = best cost min max step - step ∨
            newMin cost min max step = best cost min max step := by
          rw [newMin]
          split
          · next hlt =>
              refine .inr ?_
              obtain ⟨q, hq⟩ := hbdvd
              have hq0 : q = 0 := by nlinarith
              rw [hq0, Int.mul_zero] at hq
              omega
          · exact .inl rfl
        have hnewMax : newMax cost min max step = best cost min max step + step ∨
            newMax cost min max step = best cost min max step := by
          rw [newMax]
          split
          · next hgt =>
              refine .inr ?_
              obtain ⟨q, hq⟩ := (Int.dvd_sub hdvd hbdvd)
              have hq0 : q = 0 := by nlinarith
              rw [hq0, Int.mul_zero] at hq
              omega
          · exact .inl rfl
        have hdvdMin : step ∣ best cost min max step - newMin cost min max step := by
          rcases hnewMin with he | he <;> rw [he]
          · exact ⟨1, by omega⟩
          · exact ⟨0, by omega⟩
        have hdvdWindow : step ∣ newMax cost min max step - newMin cost min max step := by
          have hdvdMax : step ∣ newMax cost min max step - best cost min max step := by
            rcases hnewMax with he | he <;> rw [he]
            · exact ⟨1, by omega⟩
            · exact ⟨0, by omega⟩
          have hsum := Int.dvd_add hdvdMax hdvdMin
          rwa [sub_add_sub_cancel] at hsum
        obtain ⟨N, hN⟩ := ih (by omega) hwindow hnextpos (.inr hb) (hnextdvd.trans hdvdWindow)
          fun i => hchain (i + 1)
        refine ⟨N + (scanned min max step).length + 2, fun fuel hfuel => ?_⟩
        obtain ⟨fuel, rfl⟩ := Nat.exists_eq_add_of_le' (m := 1) (n := fuel) (by omega)
        obtain ⟨s, v, hrun, hsets, hlast, hresult, hle, hmeasured⟩ := hN fuel (by omega)
        -- the best value is scanned again
        have hagain : best cost min max step ∈ s.measured := by
          refine hmeasured _ (mem_scanned_of_dvd hwindow hnextpos ?_ ?_ (hnextdvd.trans hdvdMin))
          · rcases hnewMin with he | he <;> omega
          · rcases hnewMax with he | he <;> omega
        refine ⟨⟨scanned min max step ++ s.sets, scanned min max step ++ s.measured, s.result⟩, v,
          ?_, ?_, ?_, hresult, ?_, fun n hn => List.mem_append_left _ hn⟩
        · rw [call_step (by omega) h hstep (by omega), call_tdiv (by omega) (by omega), hrun]
          rfl
        · intro n hn
          rcases List.mem_append.mp hn with hn | hn
          · exact hrange n hn
          · obtain ⟨hl, hr⟩ := hsets n hn
            exact ⟨hmin.trans hl, hr.trans hmax⟩
        · rw [List.getLast?_append, hlast]
          rfl
        · intro n hn
          rcases List.mem_append.mp hn with hn | hn
          · exact (hle _ hagain).trans (hbestle n hn)
          · exact hle n hn

/-- Nothing is cheaper than the end of the range. -/
def atMax (max : Int) (n : Int) : Cost := if n = max then (0 : ℚ) else (1 : ℚ)

theorem atMax_best {min max step : Int} (h : min < max) (hs : 1 ≤ step) (hdvd : step ∣ max - min) :
    best (atMax max) min max step = max := by
  have hle := (best_spec (atMax max) h hs).2.2 max (mem_scanned_of_dvd h hs h.le le_rfl hdvd)
  by_contra hne
  rw [atMax, if_neg hne, atMax, if_pos rfl] at hle
  exact absurd hle (by decide)

/-- A search for the end of the range that stays below it: the step divides the range, and the
    next call searches the last step of it. -/
theorem run_atMax {branch min max step : Int} (hb : 1 ≤ branch) {fuel : Nat} {s : Search}
    (h : min < max) (hs : 1 ≤ step)
    (hrun : optimizeParameter branch (atMax max) fuel min max step = some (.ok s))
    (hsets : ∀ n ∈ s.sets, n ≤ max) : step ∣ max - min ∧ (1 < step → ∃ fuel' s',
      optimizeParameter branch (atMax max) fuel' (max - step) max (next branch step) =
        some (.ok s') ∧ ∀ n ∈ s'.sets, n ≤ max) := by
  cases fuel with
  | zero => cases hrun
  | succ fuel =>
      obtain ⟨hscan, hrest⟩ := call_sets h hs hrun
      have hdvd := (scanned_le_max_iff h hs).mp fun n hn => hsets n (hscan n hn)
      refine ⟨hdvd, fun hone => ?_⟩
      obtain ⟨s', hrun', hsets'⟩ := hrest hone
      have hbest := atMax_best h hs hdvd
      have hle : step ≤ max - min := Int.le_of_dvd (by omega) hdvd
      have hmin : newMin (atMax max) min max step = max - step := by
        rw [newMin, hbest, if_neg (by omega)]
      have hmax : newMax (atMax max) min max step = max := by
        rw [newMax, hbest, if_pos (by omega)]
      rw [hmin, hmax, call_tdiv (by omega) hb] at hrun'
      exact ⟨fuel, s', hrun', fun n hn => hsets n (hsets' n hn)⟩

/-- If it stays in the range through all calls, every step divides the one before. -/
theorem dvd_of_run {branch max : Int} (hb : 2 ≤ branch) (i : Nat) {fuel : Nat} {min step : Int}
    {s : Search} (h : min < max) (hs : 1 ≤ step)
    (hrun : optimizeParameter branch (atMax max) fuel min max step = some (.ok s))
    (hsets : ∀ n ∈ s.sets, n ≤ max) : (next branch)^[i + 1] step ∣ (next branch)^[i] step := by
  induction i generalizing fuel min step s with
  | zero =>
      by_cases hone : 1 < step
      · obtain ⟨fuel', s', hrun', hsets'⟩ := (run_atMax (by omega) h hs hrun hsets).2 hone
        have hdvd := (run_atMax (by omega) (by omega) (next_pos branch step) hrun' hsets').1
        rwa [sub_sub_cancel] at hdvd
      · have hstep : step = 1 := by omega
        rw [hstep, Function.iterate_one, next_one (by omega), Function.iterate_zero, id_eq]
  | succ i ih =>
      show (next branch)^[i + 1] (next branch step) ∣ (next branch)^[i] (next branch step)
      by_cases hone : 1 < step
      · obtain ⟨fuel', s', hrun', hsets'⟩ := (run_atMax (by omega) h hs hrun hsets).2 hone
        exact ih (by omega) (next_pos branch step) hrun' hsets'
      · have hstep : step = 1 := by omega
        have hiter : ∀ j, (next branch)^[j] 1 = 1 := fun j =>
          Function.iterate_fixed (next_one (by omega)) j
        rw [hstep, next_one (by omega), hiter, hiter]

/-- With a branch factor of one the steps stay as they are, and so do the windows. -/
theorem no_result_of_one {cost : Int → Cost} {min max : Int} (h : 1 < max - min) (fuel : Nat)
    (s : Search) : optimizeParameter 1 cost fuel min max (max - min) ≠ some (.ok s) := by
  induction fuel generalizing s with
  | zero => nofun
  | succ fuel ih =>
      intro hrun
      have hlt : min < max := by omega
      have hs : 1 ≤ max - min := by omega
      obtain ⟨s', hrun', -⟩ := (call_sets hlt hs hrun).2 h
      have hmem := (best_spec cost hlt hs).1
      obtain ⟨k, hk, hbest⟩ := mem_scanned.mp hmem
      have hle := (scanned_le hlt hs hmem).2
      -- the scan measures only the two ends
      have hk2 : k = 0 ∨ k = 1 := by
        by_contra hge
        have hmul : (max - min) * 2 ≤ (max - min) * (k : Int) :=
          Int.mul_le_mul_of_nonneg_left (by omega) (by omega)
        omega
      have hends : best cost min max (max - min) = min ∨ best cost min max (max - min) = max := by
        rcases hk2 with rfl | rfl
        · exact .inl (by rw [hbest, Int.natCast_zero, Int.mul_zero, Int.add_zero])
        · exact .inr (by rw [hbest, Int.natCast_one, Int.mul_one]; omega)
      have hmin : newMin cost min max (max - min) = min := by
        rw [newMin]
        split
        · rfl
        · rcases hends with he | he <;> omega
      have hmax : newMax cost min max (max - min) = max := by
        rw [newMax]
        split
        · rfl
        · rcases hends with he | he <;> omega
      rw [hmin, hmax, Int.tdiv_one] at hrun'
      exact ih s' hrun'

/-! ## The search -/

theorem search_eq {branch : Int} {cost : Int → Cost} {min max : Int} (hb : branch ≠ 0)
    (h : min < max) (fuel : Nat) : search branch cost fuel min max =
      optimizeParameter branch cost fuel min max (next branch (max - min)) := by
  rw [search, if_neg hb]
  rcases lt_or_gt_of_ne hb with hneg | hpos
  · -- a step below zero is computed again, and then replaced by one
    have hle : (max - min).tdiv branch ≤ 0 :=
      Int.tdiv_nonpos_of_nonneg_of_nonpos (by omega) hneg.le
    rw [next_of_neg hneg (by omega)]
    cases fuel with
    | zero => rfl
    | succ fuel =>
        have hfirst : ¬ ((max - min).tdiv branch < 0 ∧ branch = 0) := fun hand => hb hand.2
        have hlast : ¬ ((1 : Int) < 0 ∧ branch = 0) := fun hand => hb hand.2
        rw [optimizeParameter, optimizeParameter, if_neg (not_le.mpr h), if_neg (not_le.mpr h),
          if_neg hfirst, if_neg hlast]
        simp [hle]
  · exact call_tdiv (by omega) hpos

/-- Five is the best value. -/
def atFive (n : Int) : Cost := if n = 5 then (0 : ℚ) else (1 : ℚ)

end PbParameterSearch
