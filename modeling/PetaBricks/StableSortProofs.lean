import Mathlib.Data.List.Sort

/-! # Stable sorts — by a key, and then by position

    A stable sort by a key orders the elements of a list by the key and, where keys are
    equal, as they stood in the list.  So it respects another order, of which it need not
    know, exactly if what is better there comes first by key and position. -/

namespace PbStableSort

variable {α K : Type} [LinearOrder K] (key : α → K) (pos : α → ℕ)

/-- The smaller key first, then the smaller position. -/
def First (a b : α) : Prop := key a < key b ∨ key a = key b ∧ pos a < pos b

def sort (l : List α) : List α := l.insertionSort fun a b => key a ≤ key b

variable {key pos}

theorem First.asymm {a b : α} (h : First key pos a b) : ¬ First key pos b a := by
  rintro (hlt | ⟨heq, hpos⟩)
  · rcases h with h | ⟨h, -⟩
    · exact absurd hlt (not_lt.mpr h.le)
    · exact absurd hlt (h ▸ lt_irrefl _)
  · rcases h with h | ⟨-, h⟩
    · exact absurd h (heq ▸ lt_irrefl _)
    · exact absurd hpos (not_lt.mpr h.le)

theorem First.total {a b : α} (h : ¬ First key pos a b) (hpos : pos a ≠ pos b) :
    First key pos b a := by
  rcases lt_trichotomy (key a) (key b) with hlt | heq | hgt
  · exact absurd (.inl hlt) h
  · refine .inr ⟨heq.symm, lt_of_le_of_ne ?_ (Ne.symm hpos)⟩
    exact not_lt.mp fun hlt => h (.inr ⟨heq, hlt⟩)
  · exact .inl hgt

/-- Two elements of a list stand in one order or the other. -/
theorem pair_sublist {l : List α} {a b : α} (ha : a ∈ l) (hb : b ∈ l) (hne : a ≠ b) :
    [a, b].Sublist l ∨ [b, a].Sublist l := by
  induction l with
  | nil => cases ha
  | cons c l ih =>
      by_cases hac : a = c
      · subst hac
        have hb := (List.mem_cons.mp hb).resolve_left (Ne.symm hne)
        exact .inl ((List.singleton_sublist.mpr hb).cons_cons a)
      · have hal := (List.mem_cons.mp ha).resolve_left hac
        by_cases hbc : b = c
        · subst hbc
          exact .inr ((List.singleton_sublist.mpr hal).cons_cons b)
        · have hb := (List.mem_cons.mp hb).resolve_left hbc
          exact (ih hal hb).imp (fun h => h.cons c) fun h => h.cons c

variable (key)

theorem sort_perm (l : List α) : (sort key l).Perm l := List.perm_insertionSort _ l

/-- **A STABLE SORT ORDERS BY KEY AND POSITION.** -/
theorem sort_first {l : List α} (hpos : l.Pairwise fun a b => pos a < pos b) :
    (sort key l).Pairwise (First key pos) := by
  induction l with
  | nil => exact .nil
  | cons x l ih =>
      obtain ⟨hx, hl⟩ := List.pairwise_cons.mp hpos
      have hfirst := ih hl
      have hmem : ∀ b ∈ sort key l, pos x < pos b :=
        fun b hb => hx b ((sort_perm key l).mem_iff.mp hb)
      -- the head goes in front of the first element with no smaller key
      show ((sort key l).orderedInsert (fun a b => key a ≤ key b) x).Pairwise _
      clear hpos hx hl ih
      generalize sort key l = s at hfirst hmem ⊢
      induction s with
      | nil => exact List.pairwise_singleton _ _
      | cons y s ih =>
          obtain ⟨hy, hs⟩ := List.pairwise_cons.mp hfirst
          have hpy := hmem y List.mem_cons_self
          by_cases hle : key x ≤ key y
          · rw [List.orderedInsert_cons, if_pos hle]
            have hxy : First key pos x y := hle.lt_or_eq.imp id fun heq => ⟨heq, hpy⟩
            refine List.pairwise_cons.mpr ⟨fun b hb => ?_, hfirst⟩
            rcases List.mem_cons.mp hb with rfl | hb
            · exact hxy
            · rcases hy b hb with hlt | ⟨heq, -⟩
              · exact .inl (hle.trans_lt hlt)
              · exact (heq ▸ hle).lt_or_eq.imp id fun h =>
                  ⟨h, hmem b (List.mem_cons_of_mem _ hb)⟩
          · have hlt : key y < key x := not_le.mp hle
            rw [List.orderedInsert_cons, if_neg hle]
            refine List.pairwise_cons.mpr ⟨fun b hb => ?_, ih hs ?_⟩
            · rcases (List.mem_orderedInsert _).mp hb with rfl | hb
              · exact .inl hlt
              · exact hy b hb
            · exact fun b hb => hmem b (List.mem_cons_of_mem _ hb)

/-- **WHAT ORDER A STABLE SORT RESPECTS**: no element stands behind one that it is better
    than, exactly if what is better comes first by key and position. -/
theorem sort_respects_iff {l : List α} (hpos : l.Pairwise fun a b => pos a < pos b)
    (Better : α → α → Prop) (hirrefl : ∀ a, ¬ Better a a) :
    (sort key l).Pairwise (fun a b => ¬ Better b a) ↔
      ∀ a ∈ l, ∀ b ∈ l, Better a b → First key pos a b := by
  have hsort := sort_first key hpos
  rw [List.pairwise_iff_forall_sublist] at hsort ⊢
  constructor
  · intro h a ha b hb hbetter
    have hne : a ≠ b := fun heq => hirrefl b (heq ▸ hbetter)
    have ha := (sort_perm key l).mem_iff.mpr ha
    have hb := (sort_perm key l).mem_iff.mpr hb
    rcases pair_sublist ha hb hne with hab | hba
    · exact hsort hab
    · exact absurd hbetter (h hba)
  · intro h a b hab hbetter
    have ha := (sort_perm key l).mem_iff.mp (hab.subset List.mem_cons_self)
    have hb := (sort_perm key l).mem_iff.mp
      (hab.subset (List.mem_cons_of_mem _ List.mem_cons_self))
    exact (hsort hab).asymm (h b hb a ha hbetter)

end PbStableSort
