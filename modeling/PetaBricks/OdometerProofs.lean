import Mathlib.Data.List.Basic
import Mathlib.Data.List.Forall2
import Mathlib.Logic.Basic

/-! # Odometers — nested loops and the counter that stands for them

    A nest of loops visits the tuples of a product in lexicographic order.  An
    odometer visits tuples one at a time and knows only the last one: it turns the
    last wheel, and a wheel that has come round is set back and turns the wheel
    before it.  `nest_eq` and `visits_tuples` compute what each visits, and it is
    the same list; the loops are arbitrary, as long as each of them ends.

    Both can run for ever, so a run has a budget, and no value if it is not enough. -/

namespace PbOdometer

variable {α β : Type}

/-- `for (v = start; goesOn(v); v = advance(v))`. -/
structure Loop (α : Type) where
  start : α
  goesOn : α → Bool
  advance : α → α

namespace Loop

variable (l : Loop α)

/-- The loop from `v` on, with a body that visits things. -/
def exec (body : α → Option (List β)) : Nat → α → Option (List β)
  | 0, _ => none
  | n + 1, v =>
      if l.goesOn v then do
        let here ← body v
        let rest ← exec body n (l.advance v)
        pure (here ++ rest)
      else some []

/-- The values the variable takes. -/
def values (n : Nat) : Option (List α) := l.exec (fun v => some [v]) n l.start

/-- The loop ends, and the variable takes these values from `v` on. -/
inductive Takes : α → List α → Prop
  | done {v : α} (h : l.goesOn v = false) : Takes v []
  | turn {v : α} {vs : List α} (h : l.goesOn v = true) (ht : Takes (l.advance v) vs) :
      Takes v (v :: vs)

variable {l}

theorem Takes.exec {v : α} {vs : List α} (h : l.Takes v vs) {body : α → Option (List β)}
    (out : α → List β) {n : Nat} (hbody : ∀ w ∈ vs, body w = some (out w))
    (hn : vs.length < n) : l.exec body n v = some (vs.flatMap out) := by
  induction h generalizing n with
  | done h =>
      cases n with
      | zero => exact absurd hn (Nat.not_lt_zero _)
      | succ n => simp [Loop.exec, h]
  | @turn v vs h ht ih =>
      cases n with
      | zero => exact absurd hn (Nat.not_lt_zero _)
      | succ n =>
          have hrest := ih (fun w hw => hbody w (List.mem_cons_of_mem _ hw))
            (Nat.lt_of_succ_lt_succ hn)
          simp [Loop.exec, h, hbody v List.mem_cons_self, hrest]

theorem Takes.values {vs : List α} (h : l.Takes l.start vs) {n : Nat} (hn : vs.length < n) :
    l.values n = some vs := by
  rw [Loop.values, h.exec (fun v => [v]) (fun _ _ => rfl) hn]
  exact congrArg some (List.flatMap_singleton' vs)

theorem takes_of_exec {n : Nat} {v : α} {vs : List α}
    (h : l.exec (fun v => some [v]) n v = some vs) : l.Takes v vs := by
  induction n generalizing v vs with
  | zero => cases h
  | succ n ih =>
      rw [exec] at h
      by_cases hv : l.goesOn v = true
      · rw [if_pos hv] at h
        cases hrest : l.exec (fun v => some [v]) n (l.advance v) with
        | none =>
            rw [hrest] at h
            cases h
        | some ws =>
            rw [hrest] at h
            cases h
            exact .turn hv (ih hrest)
      · rw [if_neg hv] at h
        cases h
        exact .done (by simpa using hv)

theorem Takes.unique {v : α} {vs ws : List α} (h : l.Takes v vs) (h' : l.Takes v ws) :
    vs = ws := by
  induction h generalizing ws with
  | done h =>
      cases h' with
      | done _ => rfl
      | turn hg _ => rw [h] at hg; cases hg
  | turn h _ ih =>
      cases h' with
      | done hg => rw [h] at hg; cases hg
      | turn _ ht => rw [ih ht]

end Loop

/-! ## The nest -/

/-- Loops in each other, the first one outermost, with a body that visits the tuple of the
    variables. -/
def nest : List (Loop α) → Nat → Option (List (List α))
  | [], _ => some [[]]
  | l :: ls, n => l.exec (fun v => (nest ls n).map (List.map (v :: ·))) n l.start

/-- The tuples of a product, in lexicographic order. -/
def tuples : List (List α) → List (List α)
  | [] => [[]]
  | vs :: vss => vs.flatMap fun v => (tuples vss).map (v :: ·)

/-- **WHAT A NEST VISITS.** -/
theorem nest_eq {ls : List (Loop α)} {vss : List (List α)} {n : Nat}
    (h : List.Forall₂ (fun l vs => l.Takes l.start vs ∧ vs.length < n) ls vss) :
    nest ls n = some (tuples vss) := by
  induction h with
  | nil => rfl
  | cons h _ ih =>
      obtain ⟨ht, hn⟩ := h
      rw [nest, ht.exec (fun v => (tuples _).map (v :: ·)) (fun w _ => ?_) hn]
      · rfl
      · rw [ih]
        rfl

theorem Loop.exec_mono {l : Loop α} {body body' : α → Option (List β)}
    (hbody : ∀ v r, body v = some r → body' v = some r) {n n' : Nat} (hn : n ≤ n') {v : α}
    {r : List β} (h : l.exec body n v = some r) : l.exec body' n' v = some r := by
  induction n generalizing n' v r with
  | zero => cases h
  | succ n ih =>
      obtain ⟨n', rfl⟩ := Nat.exists_eq_add_of_le' (Nat.lt_of_lt_of_le (Nat.succ_pos n) hn)
      rw [Loop.exec] at h ⊢
      by_cases hv : l.goesOn v = true
      · rw [if_pos hv] at h ⊢
        obtain ⟨here, hhere, h⟩ := Option.bind_eq_some_iff.mp h
        obtain ⟨rest, hrest, h⟩ := Option.bind_eq_some_iff.mp h
        rw [hbody v here hhere]
        show (l.exec body' n' (l.advance v)).bind _ = _
        rw [ih (Nat.le_of_succ_le_succ hn) hrest]
        exact h
      · rw [if_neg hv] at h ⊢
        exact h

/-- A larger budget changes nothing. -/
theorem nest_mono {ls : List (Loop α)} {n n' : Nat} (hn : n ≤ n') {r : List (List α)}
    (h : nest ls n = some r) : nest ls n' = some r := by
  induction ls generalizing r with
  | nil => exact h
  | cons l ls ih =>
      refine Loop.exec_mono (fun v r hr => ?_) hn h
      obtain ⟨rest, hrest, rfl⟩ := Option.map_eq_some_iff.mp hr
      rw [ih hrest]
      rfl

theorem mem_tuples {vss : List (List α)} {x : List α} :
    x ∈ tuples vss ↔ List.Forall₂ (fun v vs => v ∈ vs) x vss := by
  induction vss generalizing x with
  | nil => rw [List.forall₂_nil_right_iff, tuples, List.mem_singleton]
  | cons vs vss ih =>
      simp only [tuples, List.mem_flatMap, List.mem_map]
      constructor
      · rintro ⟨v, hv, y, hy, rfl⟩
        exact .cons hv (ih.mp hy)
      · intro h
        cases h with
        | @cons v _ y _ hv hy => exact ⟨v, hv, y, ih.mpr hy, rfl⟩

/-! ## The odometer -/

/-- The first wheel is turned; if it has come round, so is the next one. -/
def carry : List ((α → α × Bool) × α) → List α × Bool
  | [] => ([], false)
  | (turn, v) :: rest =>
      match turn v with
      | (v, true) =>
          let (vs, hasNext) := carry rest
          (v :: vs, hasNext)
      | (v, false) => (v :: rest.map Prod.snd, true)

/-- The next tuple, and whether there is one. -/
def next (turns : List (α → α × Bool)) (c : List α) : List α × Bool :=
  let (vs, hasNext) := carry (turns.zip c).reverse
  (vs.reverse, hasNext)

/-- The tuples from `c` on. -/
def count (turns : List (α → α × Bool)) : Nat → List α → Option (List (List α))
  | 0, _ => none
  | n + 1, c =>
      let (c', hasNext) := next turns c
      if hasNext then (count turns n c').map (c :: ·) else some [c]

/-- A wheel for a loop: it comes round where the loop ends. -/
def Loop.turn (l : Loop α) (v : α) : α × Bool :=
  if l.goesOn (l.advance v) then (l.advance v, false) else (l.start, true)

theorem carry_concat (ts : List ((α → α × Bool) × α)) (turn : α → α × Bool) (v : α) :
    carry (ts ++ [(turn, v)]) =
      if (carry ts).2 then ((carry ts).1 ++ [v], true)
      else ((carry ts).1 ++ [(turn v).1], !(turn v).2) := by
  induction ts with
  | nil =>
      rw [List.nil_append, carry, carry]
      rcases turn v with ⟨w, _ | _⟩ <;> rfl
  | cons t ts ih =>
      obtain ⟨turn', w⟩ := t
      rw [List.cons_append, carry, carry]
      rcases turn' w with ⟨w', _ | _⟩
      · simp
      · simp only [ih]
        split <;> rfl

/-- The first wheel turns where the wheels behind it have come round. -/
theorem next_cons (turn : α → α × Bool) (turns : List (α → α × Bool)) (v : α) (c : List α) :
    next (turn :: turns) (v :: c) =
      if (next turns c).2 then (v :: (next turns c).1, true)
      else ((turn v).1 :: (next turns c).1, !(turn v).2) := by
  rw [next, List.zip_cons_cons, List.reverse_cons, carry_concat]
  simp only [next]
  by_cases h : (carry (turns.zip c).reverse).2 = true
  · simp [h]
  · simp [h]

theorem length_carry (ts : List ((α → α × Bool) × α)) : (carry ts).1.length = ts.length := by
  induction ts with
  | nil => rfl
  | cons t ts ih =>
      obtain ⟨turn, v⟩ := t
      rw [carry]
      rcases turn v with ⟨w, _ | _⟩
      · simp
      · simpa using ih

theorem length_next {turns : List (α → α × Bool)} {c : List α} (h : c.length = turns.length) :
    (next turns c).1.length = turns.length := by
  simp [next, length_carry, h]

/-- The odometer stops, and visits these tuples from `c` on. -/
inductive Visits (turns : List (α → α × Bool)) : List α → List (List α) → Prop
  | last {c : List α} (h : (next turns c).2 = false) : Visits turns c [c]
  | step {c : List α} {cs : List (List α)} (h : (next turns c).2 = true)
      (hv : Visits turns (next turns c).1 cs) : Visits turns c (c :: cs)

theorem Visits.count {turns : List (α → α × Bool)} {c : List α} {cs : List (List α)}
    (h : Visits turns c cs) : ∀ {n : Nat}, cs.length ≤ n → count turns n c = some cs := by
  induction h with
  | last h =>
      intro n hn
      cases n with
      | zero => cases hn
      | succ n => simp [PbOdometer.count, h]
  | step h _ ih =>
      intro n hn
      cases n with
      | zero => cases hn
      | succ n => simp [PbOdometer.count, h, ih (Nat.le_of_succ_le_succ hn)]

/-- Where the wheels behind the first one go through `cs` and come round, the first one
    goes through `v :: vs`. -/
theorem Visits.cons {l : Loop α} {turns : List (α → α × Bool)} {starts : List α}
    (hround : ∀ c, c.length = turns.length → (next turns c).2 = false →
      (next turns c).1 = starts)
    (hlen : starts.length = turns.length) {cs₀ : List (List α)}
    (hstarts : Visits turns starts cs₀) {vs : List α} {v : α} (ht : l.Takes (l.advance v) vs)
    {c : List α} (hc : c.length = turns.length) {cs : List (List α)} (h : Visits turns c cs) :
    Visits (l.turn :: turns) (v :: c)
      (cs.map (v :: ·) ++ vs.flatMap (fun w => cs₀.map (w :: ·))) := by
  induction vs generalizing v c cs with
  | nil =>
      -- the first wheel comes round as well
      have hstop : l.goesOn (l.advance v) = false := by
        cases ht with
        | done h => exact h
      rw [List.flatMap_nil, List.append_nil]
      induction h with
      | last h =>
          refine .last ?_
          rw [next_cons, h, if_neg Bool.false_ne_true, Loop.turn, hstop]
          rfl
      | step h _ ih =>
          refine .step ?_ ?_
          · rw [next_cons, h]
            rfl
          · rw [next_cons, h]
            exact ih (length_next hc)
  | cons w vs ih =>
      obtain ⟨hgo, ht', hw⟩ : l.goesOn (l.advance v) = true ∧
          l.Takes (l.advance w) vs ∧ w = l.advance v := by
        cases ht with
        | turn h ht => exact ⟨h, ht, rfl⟩
      induction h with
      | @last c h =>
          -- the wheels behind are set back as the first one turns
          have hnext : next (l.turn :: turns) (v :: c) = (w :: starts, true) := by
            rw [next_cons, h, if_neg Bool.false_ne_true, hround c hc h, Loop.turn, hgo, hw]
            rfl
          refine .step (by rw [hnext]) ?_
          rw [hnext]
          exact ih ht' hlen hstarts
      | step h _ ih' =>
          refine .step ?_ ?_
          · rw [next_cons, h]
            rfl
          · rw [next_cons, h]
            exact ih' (length_next hc)

/-- Wheels that have all come round are set to their starts. -/
theorem next_round (ls : List (Loop α)) {c : List α}
    (hc : c.length = (ls.map Loop.turn).length)
    (h : (next (ls.map Loop.turn) c).2 = false) :
    (next (ls.map Loop.turn) c).1 = ls.map Loop.start := by
  induction ls generalizing c with
  | nil => simp [next, carry]
  | cons l ls ih =>
      cases c with
      | nil => cases hc
      | cons v c =>
          rw [List.map_cons, next_cons] at h ⊢
          cases hn : (next (ls.map Loop.turn) c).2 with
          | true =>
              rw [hn] at h
              cases h
          | false =>
              rw [hn, if_neg Bool.false_ne_true, Bool.not_eq_false'] at h
              rw [if_neg Bool.false_ne_true, ih (Nat.succ.inj hc) hn, List.map_cons]
              -- no next tuple is left only where the first wheel comes round
              have hstart : (l.turn v).1 = l.start := by
                cases hg : l.goesOn (l.advance v) with
                | true =>
                    rw [Loop.turn, hg] at h
                    cases h
                | false => simp [Loop.turn, hg]
              rw [hstart]

/-- **WHAT AN ODOMETER VISITS** from where all its wheels start, each of which has a value. -/
theorem visits_tuples {ls : List (Loop α)} {vss : List (List α)}
    (h : List.Forall₂ (fun l vs => l.Takes l.start vs ∧ vs ≠ []) ls vss) :
    Visits (ls.map Loop.turn) (ls.map Loop.start) (tuples vss) := by
  induction h with
  | nil => exact .last rfl
  | @cons l vs ls vss h _ ih =>
      obtain ⟨ht, hne⟩ := h
      cases ht with
      | done _ => exact absurd rfl hne
      | turn _ ht =>
          have hlen : (ls.map Loop.start).length = (ls.map Loop.turn).length := by simp
          exact Visits.cons (fun c hc hstop => next_round ls hc hstop) hlen ih ht hlen ih

end PbOdometer
