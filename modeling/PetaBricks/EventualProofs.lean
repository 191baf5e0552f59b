import PetaBricks.TransitionProofs

/-! # Eventual outcomes — every run ends where it should

    `Must sys Q s`: every run from `s` ends, and where it ends, `Q` holds; there is
    neither a deadlock before `Q` nor an endless run.

    When the actions of different actors commute, not every interleaving has to be
    looked at: an actor that has one action only may as well take it first
    (`Commuting.first`).  `Leads sys s T` packs this up: whatever is to be proved of
    `s`, it is enough to prove it of the states of `T`. -/

namespace PbEventual

open PbTransition

variable {S A P : Type} {sys : System S A} {Q R : S → Prop} {s t : S}

/-- Every run from the state ends, in a state of `Q`. -/
inductive Must (sys : System S A) (Q : S → Prop) : S → Prop where
  | stop (s : S) (hstop : ∀ a, sys.next s a = none) (hq : Q s) : Must sys Q s
  | go (s : S) (a : A) (t : S) (hn : sys.next s a = some t)
      (hall : ∀ b u, sys.next s b = some u → Must sys Q u) : Must sys Q s

theorem Must.mono (hm : Must sys Q s) (hqr : ∀ u, Q u → R u) : Must sys R s := by
  induction hm with
  | stop s hstop hq => exact .stop s hstop (hqr s hq)
  | go s a t hn hall ih => exact .go s a t hn ih

theorem Must.next (hm : Must sys Q s) {a : A} (hn : sys.next s a = some t) : Must sys Q t := by
  cases hm with
  | stop s hstop hq =>
      rw [hstop a] at hn
      cases hn
  | go s b u hb hall => exact hall a t hn

/-- What must happen still must after some steps. -/
theorem Must.run (hm : Must sys Q s) {as : List A} (hr : RunOf sys s as t) : Must sys Q t :=
  hr.invariant (Must sys Q) (fun _ _ _ hu hn => hu.next hn) hm

/-- Where a run can stop, `Q` holds. -/
theorem Must.stopped (hm : Must sys Q s) (hstop : ∀ a, sys.next s a = none) : Q s := by
  cases hm with
  | stop s _ hq => exact hq
  | go s a t hn _ =>
      rw [hstop a] at hn
      cases hn

/-- No run goes on for ever. -/
theorem Must.finite (hm : Must sys Q s) (f : Nat → S) (h0 : f 0 = s) :
    ¬ ∀ n, ∃ a, sys.next (f n) a = some (f (n + 1)) := by
  induction hm generalizing f with
  | stop s hstop hq =>
      intro h
      obtain ⟨a, ha⟩ := h 0
      rw [h0, hstop a] at ha
      cases ha
  | go s a t hn hall ih =>
      intro h
      obtain ⟨b, hb⟩ := h 0
      rw [h0] at hb
      exact ih b (f 1) hb (fun n => f (n + 1)) rfl (fun n => h (n + 1))

/-! ## Actors -/

/-- The actions of different actors commute.  `Only s a` says that `a` is the only action
    its actor can take in `s`. -/
structure Commuting (sys : System S A) (actor : A → P) (Only : S → A → Prop) : Prop where
  diamond : ∀ {s t u a b}, actor a ≠ actor b → sys.next s a = some t → sys.next s b = some u →
    ∃ v, sys.next t b = some v ∧ sys.next u a = some v
  only : ∀ {s t a b}, Only s a → actor b = actor a → sys.next s b = some t → b = a
  keep : ∀ {s t a b}, Only s a → actor b ≠ actor a → sys.next s b = some t → Only t a

/-- **ONE ACTION FIRST**: an actor that has one action only may take it now. -/
theorem Commuting.first {actor : A → P} {Only : S → A → Prop} (hc : Commuting sys actor Only)
    {a : A} (ho : Only s a) (hn : sys.next s a = some t) (hm : Must sys Q t) :
    Must sys Q s := by
  induction hm generalizing s with
  | stop t hstop hq =>
      refine .go s a t hn (fun b u hb => ?_)
      by_cases hba : actor b = actor a
      · obtain rfl := hc.only ho hba hb
        rw [hb] at hn
        rw [Option.some.inj hn]
        exact .stop t hstop hq
      · -- the other step would still be possible afterwards
        obtain ⟨v, hv, -⟩ := hc.diamond (Ne.symm hba) hn hb
        rw [hstop b] at hv
        cases hv
  | go t c v hcv hall ih =>
      refine .go s a t hn (fun b u hb => ?_)
      by_cases hba : actor b = actor a
      · obtain rfl := hc.only ho hba hb
        rw [hb] at hn
        rw [Option.some.inj hn]
        exact .go t c v hcv hall
      · obtain ⟨w, hw, huw⟩ := hc.diamond (Ne.symm hba) hn hb
        exact ih b w hw (hc.keep ho hba hb) huw

/-! ## Leading on -/

/-- What must happen from all states of `T` must happen from `s`. -/
def Leads (sys : System S A) (s : S) (T : S → Prop) : Prop :=
  ∀ Q : S → Prop, (∀ t, T t → Must sys Q t) → Must sys Q s

theorem Leads.refl {T : S → Prop} (h : T s) : Leads sys s T := fun _ hq => hq s h

theorem Leads.trans {T U : S → Prop} (h : Leads sys s T) (h' : ∀ t, T t → Leads sys t U) :
    Leads sys s U := fun Q hq => h Q (fun t ht => h' t ht Q hq)

theorem Leads.mono {T U : S → Prop} (h : Leads sys s T) (htu : ∀ t, T t → U t) :
    Leads sys s U := h.trans (fun t ht => .refl (htu t ht))

/-- One step of an actor that has one action only. -/
theorem Commuting.leads {actor : A → P} {Only : S → A → Prop} (hc : Commuting sys actor Only)
    {a : A} (ho : Only s a) (hn : sys.next s a = some t) : Leads sys s (fun u => u = t) :=
  fun _ hq => hc.first ho hn (hq t rfl)

/-- One step, whichever it is. -/
theorem Leads.step {a : A} (hn : sys.next s a = some t) :
    Leads sys s (fun u => ∃ b, sys.next s b = some u) :=
  fun _ hq => .go s a t hn (fun b u hb => hq u ⟨b, hb⟩)

theorem Leads.must {T : S → Prop} (h : Leads sys s T)
    (hstop : ∀ t, T t → ∀ a, sys.next t a = none) : Must sys T s :=
  h T (fun t ht => .stop t (hstop t ht) ht)

end PbEventual
