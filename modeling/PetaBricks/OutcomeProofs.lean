import Mathlib.Data.List.Forall2
import Mathlib.Tactic.Common

/-!
# Outcomes — how a computation that may fail can end

`Ends x bad post` says all there is to say about a fallible computation: a result satisfies
`post`, and an error satisfies `bad`.  Unlike a statement about results alone it can rule errors
out, so that what holds of every computation that ends well and what makes one end badly are
proved in one pass over its steps.
-/

namespace PbOutcome

variable {ε α β : Type}

/-- Results satisfy `post`, errors satisfy `bad`. -/
def Ends (x : Except ε α) (bad : ε → Prop) (post : α → Prop) : Prop :=
  match x with
  | .ok a => post a
  | .error e => bad e

theorem bind_eq {x : Except ε α} {f : α → Except ε β} {a : α} (hx : x = .ok a) :
    (x >>= f) = f a := by
  rw [hx]
  rfl

namespace Ends

variable {bad : ε → Prop}

theorem ok {post : α → Prop} {a : α} (h : post a) :
    Ends (Except.ok a : Except ε α) bad post := h

theorem error {post : α → Prop} {e : ε} (h : bad e) :
    Ends (Except.error e : Except ε α) bad post := h

theorem of_ok {x : Except ε α} {post : α → Prop} {a : α} (h : Ends x bad post)
    (hx : x = .ok a) : post a := by
  rw [hx] at h
  exact h

theorem of_error {x : Except ε α} {post : α → Prop} {e : ε} (h : Ends x bad post)
    (hx : x = .error e) : bad e := by
  rw [hx] at h
  exact h

theorem mono {x : Except ε α} {bad' : ε → Prop} {post post' : α → Prop} (h : Ends x bad post)
    (hbad : ∀ e, bad e → bad' e) (hpost : ∀ a, post a → post' a) : Ends x bad' post' := by
  cases x with
  | ok a => exact hpost a h
  | error e => exact hbad e h

theorem bind {x : Except ε α} {f : α → Except ε β} {mid : α → Prop} {post : β → Prop}
    (hx : Ends x bad mid) (hf : ∀ a, mid a → Ends (f a) bad post) :
    Ends (x >>= f) bad post := by
  cases x with
  | ok a => exact hf a hx
  | error e => exact hx

/-- A step whose result is known. -/
theorem bind_ok {x : Except ε α} {f : α → Except ε β} {a : α} {post : β → Prop} (hx : x = .ok a)
    (hf : Ends (f a) bad post) : Ends (x >>= f) bad post := by
  rw [bind_eq hx]
  exact hf

/-- **THE RULE OF LOOPS**: an invariant of the elements done so far that each step keeps, or else
    fails as allowed, holds of all elements at the end. -/
theorem foldlM {f : β → α → Except ε β} {l : List α} {b : β} (inv : List α → β → Prop)
    (hstart : inv [] b)
    (hstep : ∀ done a rest, l = done ++ a :: rest → ∀ b, inv done b →
      Ends (f b a) bad (inv (done ++ [a]))) :
    Ends (l.foldlM f b) bad (inv l) := by
  have hrun : ∀ rest done b, l = done ++ rest → inv done b →
      Ends (rest.foldlM f b) bad (inv l) := by
    intro rest
    induction rest with
    | nil =>
        intro done b hl hinv
        rw [hl, List.append_nil]
        exact hinv
    | cons a rest ih =>
        intro done b hl hinv
        rw [List.foldlM_cons]
        refine bind (hstep done a rest hl b hinv) ?_
        intro b' hb'
        exact ih (done ++ [a]) b' (by rw [hl, List.append_assoc]; rfl) hb'
  exact hrun l [] b rfl hstart

/-- Each element is mapped as `R` says. -/
theorem mapM {f : α → Except ε β} {l : List α} {R : α → β → Prop}
    (h : ∀ a ∈ l, Ends (f a) bad (R a)) : Ends (l.mapM f) bad (List.Forall₂ R l) := by
  induction l with
  | nil => exact List.Forall₂.nil
  | cons a rest ih =>
      rw [List.mapM_cons]
      refine bind (h a List.mem_cons_self) ?_
      intro b hb
      refine bind (ih (fun x hx => h x (List.mem_cons_of_mem _ hx))) ?_
      intro bs hbs
      exact List.Forall₂.cons hb hbs

end Ends

/-! ## Lists that were mapped -/

theorem exists_of_forall₂_concat {R : α → β → Prop} {l : List α} {a : α}
    {bs : List β} (h : List.Forall₂ R (l ++ [a]) bs) :
    ∃ bs' b, List.Forall₂ R l bs' ∧ R a b ∧ bs = bs' ++ [b] := by
  induction l generalizing bs with
  | nil =>
      cases h with
      | cons hab hnil =>
          cases hnil
          exact ⟨[], _, List.Forall₂.nil, hab, rfl⟩
  | cons x rest ih =>
      cases h with
      | cons hxb hrest =>
          obtain ⟨bs', b, h1, h2, rfl⟩ := ih hrest
          exact ⟨_ :: bs', b, List.Forall₂.cons hxb h1, h2, rfl⟩

theorem forall_mem_iff_of_forall₂ {R : α → β → Prop} {P : α → Prop} {Q : β → Prop}
    {l : List α} {bs : List β} (h : List.Forall₂ R l bs) (hR : ∀ a b, R a b → (Q b ↔ P a)) :
    (∀ b ∈ bs, Q b) ↔ ∀ a ∈ l, P a := by
  induction h with
  | nil => simp
  | cons hab _ ih => rw [List.forall_mem_cons, List.forall_mem_cons, ih, hR _ _ hab]

theorem eq_map_of_forall₂ {R : α → β → Prop} {g : α → β} {l : List α} {bs : List β}
    (h : List.Forall₂ R l bs) (hR : ∀ a b, R a b → b = g a) : bs = l.map g := by
  induction h with
  | nil => rfl
  | cons hab _ ih => rw [List.map_cons, ih, hR _ _ hab]

end PbOutcome
