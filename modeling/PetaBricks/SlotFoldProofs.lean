import Mathlib.Data.List.Nodup

/-! # Slots — folds whose steps stay in their own part of the state

    A state is seen through its slots.  Each step has a slot of its own: it leaves the
    others as they are, and what it does to its own depends on that slot only.  A fold
    over steps with different slots then does to each slot what its one step does to the
    state at the beginning (`Local.foldl_own`). -/

namespace PbSlotFold

variable {S α ι : Type} {V : ι → Type}

/-- Every step reads and writes its own slot. -/
structure Local (view : (i : ι) → S → V i) (owner : α → ι) (step : S → α → S) : Prop where
  frame : ∀ s a i, owner a ≠ i → view i (step s a) = view i s
  own : ∀ s s' a, view (owner a) s = view (owner a) s' →
    view (owner a) (step s a) = view (owner a) (step s' a)

variable {view : (i : ι) → S → V i} {owner : α → ι} {step : S → α → S}

/-- A slot that belongs to none of the steps. -/
theorem Local.foldl_frame (h : Local view owner step) {as : List α} {i : ι}
    (hi : ∀ a ∈ as, owner a ≠ i) (s : S) : view i (as.foldl step s) = view i s := by
  induction as generalizing s with
  | nil => rfl
  | cons a as ih =>
      rw [List.foldl_cons, ih fun b hb => hi b (List.mem_cons_of_mem _ hb)]
      exact h.frame s a i (hi a List.mem_cons_self)

/-- **A SLOT SEES ONE STEP**, and sees it as if it were the first. -/
theorem Local.foldl_own (h : Local view owner step) {as : List α} (hnd : (as.map owner).Nodup)
    {a : α} (ha : a ∈ as) (s : S) :
    view (owner a) (as.foldl step s) = view (owner a) (step s a) := by
  induction as generalizing s with
  | nil => cases ha
  | cons b bs ih =>
      rw [List.map_cons, List.nodup_cons] at hnd
      obtain ⟨hb, hbs⟩ := hnd
      rw [List.foldl_cons]
      rcases List.mem_cons.mp ha with rfl | ha
      · refine h.foldl_frame (fun c hc heq => hb ?_) _
        rw [← heq]
        exact List.mem_map_of_mem hc
      · have hne : owner b ≠ owner a := fun heq => hb (heq ▸ List.mem_map_of_mem ha)
        rw [ih hbs ha]
        exact h.own _ _ a (h.frame s b _ hne)

end PbSlotFold
