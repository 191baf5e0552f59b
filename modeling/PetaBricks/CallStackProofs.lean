import Mathlib.Algebra.BigOperators.Group.List.Basic
import Mathlib.Algebra.Order.BigOperators.Group.List
import Mathlib.Algebra.Order.Ring.Nat
import Mathlib.Algebra.BigOperators.Fin

/-! # Call stacks — counting over what every thread holds

    The threads of a program are a list of call stacks, the running frame of
    each on top.  A step pops the top frame of one stack and pushes what that
    frame calls next, so a weight summed over all frames changes by the frames
    popped and pushed (`total_pop`, `total_push`), and a frame is on some stack
    afterwards exactly if it was pushed or was there below (`onStack_pop`,
    `onStack_push`).  Invariants that count how often something is "in some
    thread's hands" are equations about such totals.

    The last section is the same for a finite family of records of which a step
    stores one (`sum_update`). -/

namespace PbCallStack

variable {F : Type}

/-- A weight summed over one stack. -/
def stackSum (w : F → Nat) (st : List F) : Nat := (st.map w).sum

/-- A weight summed over every frame of every thread. -/
def total (w : F → Nat) (th : List (List F)) : Nat := (th.map (stackSum w)).sum

/-- The frame is on some thread's stack. -/
def OnStack (f : F) (th : List (List F)) : Prop := ∃ st ∈ th, f ∈ st

/-! ## What one stack gains and loses -/

private theorem total_set (w : F → Nat) :
    ∀ {th : List (List F)} {i : Nat} {st : List F} (st' : List F),
      th[i]? = some st →
      total w (th.set i st') + stackSum w st = total w th + stackSum w st' := by
  intro th
  induction th with
  | nil => intro i st st' h; simp at h
  | cons hd tl ih =>
      intro i st st' h
      cases i with
      | zero =>
          have hst : hd = st := by simpa using h
          subst hst
          simp only [total, List.set_cons_zero, List.map_cons, List.sum_cons]
          omega
      | succ i =>
          have hrec := ih (i := i) st' (by simpa using h)
          simp only [total, List.set_cons_succ, List.map_cons,
            List.sum_cons] at hrec ⊢
          omega

private theorem stackSum_cons (w : F → Nat) (f : F) (st : List F) :
    stackSum w (f :: st) = w f + stackSum w st := by
  simp [stackSum]

/-- A stack written back unchanged changes nothing. -/
theorem set_self {th : List (List F)} {i : Nat} {st : List F}
    (h : th[i]? = some st) : th.set i st = th := by
  refine List.ext_getElem? fun j => ?_
  by_cases hij : i = j
  · subst hij
    obtain ⟨hlt, -⟩ := List.getElem?_eq_some_iff.mp h
    rw [List.getElem?_set_self hlt, h]
  · exact List.getElem?_set_ne hij

/-- **PUSH**: a frame pushed adds its weight. -/
theorem total_push (w : F → Nat) {th : List (List F)} {i : Nat}
    {st₀ : List F} (f : F) (st : List F) (h : th[i]? = some st₀) :
    total w (th.set i (f :: st)) = w f + total w (th.set i st) := by
  have h1 := total_set w (f :: st) h
  have h2 := total_set w st h
  rw [stackSum_cons] at h1
  omega

/-- **POP**: the top frame's weight and that of what stays below. -/
theorem total_pop (w : F → Nat) {th : List (List F)} {i : Nat} {f : F}
    {st : List F} (h : th[i]? = some (f :: st)) :
    total w th = w f + total w (th.set i st) := by
  have h1 := total_push w f st h
  rw [set_self h] at h1
  exact h1

/-- What is on a stack after a push was pushed or was there. -/
theorem onStack_push {g f : F} {th : List (List F)} {i : Nat}
    {st₀ st : List F} (h : th[i]? = some st₀) :
    OnStack g (th.set i (f :: st)) ↔ g = f ∨ OnStack g (th.set i st) := by
  obtain ⟨hlt, -⟩ := List.getElem?_eq_some_iff.mp h
  constructor
  · rintro ⟨st₁, hst₁, hg⟩
    obtain ⟨j, hj⟩ := List.mem_iff_getElem?.mp hst₁
    by_cases hij : i = j
    · subst hij
      rw [List.getElem?_set_self hlt] at hj
      have heq : f :: st = st₁ := Option.some.inj hj
      subst heq
      rcases List.mem_cons.mp hg with h0 | h1
      · exact Or.inl h0
      · exact Or.inr ⟨st, List.mem_set hlt st, h1⟩
    · rw [List.getElem?_set_ne hij] at hj
      refine Or.inr ⟨st₁, List.mem_iff_getElem?.mpr ⟨j, ?_⟩, hg⟩
      rw [List.getElem?_set_ne hij]
      exact hj
  · rintro (rfl | ⟨st₁, hst₁, hg⟩)
    · exact ⟨_, List.mem_set hlt _, List.mem_cons_self⟩
    · obtain ⟨j, hj⟩ := List.mem_iff_getElem?.mp hst₁
      by_cases hij : i = j
      · subst hij
        rw [List.getElem?_set_self hlt] at hj
        have heq : st = st₁ := Option.some.inj hj
        subst heq
        exact ⟨_, List.mem_set hlt _, List.mem_cons_of_mem _ hg⟩
      · refine ⟨st₁, List.mem_iff_getElem?.mpr ⟨j, ?_⟩, hg⟩
        rw [List.getElem?_set_ne hij] at hj ⊢
        exact hj

/-- What is on a stack before a pop is the top frame or stays. -/
theorem onStack_pop {g f : F} {th : List (List F)} {i : Nat} {st : List F}
    (h : th[i]? = some (f :: st)) :
    OnStack g th ↔ g = f ∨ OnStack g (th.set i st) := by
  have h1 : OnStack g (th.set i (f :: st)) ↔ g = f ∨ OnStack g (th.set i st) :=
    onStack_push h
  rw [set_self h] at h1
  exact h1

/-! ## Totals and frames -/

/-- A weight that agrees with another on every frame has the same total. -/
theorem total_congr {w w' : F → Nat} {th : List (List F)}
    (h : ∀ f, OnStack f th → w f = w' f) : total w th = total w' th := by
  have hst : ∀ st ∈ th, stackSum w st = stackSum w' st := fun st hst =>
    congrArg List.sum (List.map_congr_left (fun f hf => h f ⟨st, hst, hf⟩))
  exact congrArg List.sum (List.map_congr_left hst)

/-- A pointwise lighter weight has a smaller total. -/
theorem total_mono {w w' : F → Nat} (th : List (List F))
    (h : ∀ f, w f ≤ w' f) : total w th ≤ total w' th :=
  List.sum_le_sum fun _ _ => List.sum_le_sum fun f _ => h f

/-- A frame weighs no more than all frames together. -/
theorem le_total {w : F → Nat} {f : F} {th : List (List F)}
    (h : OnStack f th) : w f ≤ total w th := by
  obtain ⟨st, hst, hf⟩ := h
  calc w f ≤ stackSum w st :=
        List.single_le_sum (fun _ _ => Nat.zero_le _) _ (List.mem_map_of_mem hf)
    _ ≤ total w th :=
        List.single_le_sum (fun _ _ => Nat.zero_le _) _ (List.mem_map_of_mem hst)

/-- A weight that is nowhere positive totals zero. -/
theorem total_eq_zero {w : F → Nat} {th : List (List F)}
    (h : ∀ f, OnStack f th → w f = 0) : total w th = 0 := by
  refine List.sum_eq_zero fun n hn => ?_
  obtain ⟨st, hst, rfl⟩ := List.mem_map.mp hn
  refine List.sum_eq_zero fun m hm => ?_
  obtain ⟨f, hf, rfl⟩ := List.mem_map.mp hm
  exact h f ⟨st, hst, hf⟩

/-- A positive total is some frame's. -/
theorem exists_of_total_pos {w : F → Nat} {th : List (List F)}
    (h : 0 < total w th) : ∃ f, OnStack f th ∧ 0 < w f := by
  by_contra hno
  have hz : total w th = 0 := by
    refine total_eq_zero fun f hf => ?_
    rcases Nat.eq_zero_or_pos (w f) with h0 | h1
    · exact h0
    · exact absurd ⟨f, hf, h1⟩ hno
  omega

/-! ## Families of records -/

/-- **STORE**: storing one member changes a sum over the family by that member's
    share. -/
theorem sum_update {K R M : Type} [Fintype K] [DecidableEq K] [AddCommMonoid M]
    (g : R → M) (f : K → R) (k : K) (r : R) :
    ∑ j, g (Function.update f k r j) + g (f k) = ∑ j, g (f j) + g r := by
  rw [← Finset.add_sum_erase _ (fun j => g (f j)) (Finset.mem_univ k),
    ← Finset.add_sum_erase _ (fun j => g (Function.update f k r j))
      (Finset.mem_univ k)]
  have hrest : ∑ j ∈ Finset.univ.erase k, g (Function.update f k r j)
      = ∑ j ∈ Finset.univ.erase k, g (f j) :=
    Finset.sum_congr rfl fun j hj => by
      rw [Function.update_of_ne (Finset.ne_of_mem_erase hj)]
  rw [hrest, Function.update_self, add_right_comm, add_comm (g r),
    add_right_comm]

end PbCallStack
