import PetaBricks.OrderedMapProofs

/-! # Maps filled by merging

    Values come with keys; the first value of a key is stored, and each later one is merged with
    what is there.  The merge may fail, and is neither commutative nor associative here, so what
    is stored for a key is the fold of its values in their order. -/

namespace PbMergingMap

open PbOrderedMap

variable {κ ν : Type} [LinearOrder κ] (merge : ν → ν → Option ν)

def mergeInto (map : OrderedMap κ ν) (e : κ × ν) : Option (OrderedMap κ ν) :=
  match map.find e.1 with
  | none => some (map.insert e.1 e.2)
  | some v => (merge v e.2).map (map.insert e.1)

def mergeAll (l : List (κ × ν)) : Option (OrderedMap κ ν) := l.foldlM (mergeInto merge) ∅

/-- The values of a key, in order. -/
def valuesAt (k : κ) (l : List (κ × ν)) : List ν :=
  l.filterMap fun e => if e.1 = k then some e.2 else none

/-- One slot: what is stored, if anything, and the values to come. -/
def mergeSlot : Option ν → List ν → Option (Option ν)
  | e, [] => some e
  | none, v :: vs => mergeSlot (some v) vs
  | some e, v :: vs => (merge e v).bind fun e => mergeSlot (some e) vs

variable {merge}

theorem valuesAt_cons_self (k : κ) (v : ν) (l : List (κ × ν)) :
    valuesAt k ((k, v) :: l) = v :: valuesAt k l :=
  List.filterMap_cons_some (if_pos rfl)

theorem valuesAt_cons_of_ne {k k' : κ} (h : k' ≠ k) (v : ν) (l : List (κ × ν)) :
    valuesAt k ((k', v) :: l) = valuesAt k l :=
  List.filterMap_cons_none (if_neg h)

theorem mem_valuesAt {k : κ} {l : List (κ × ν)} {v : ν} (h : (k, v) ∈ l) : v ∈ valuesAt k l :=
  List.mem_filterMap.mpr ⟨(k, v), h, if_pos rfl⟩

theorem mem_of_mem_valuesAt {k : κ} {l : List (κ × ν)} {v : ν} (h : v ∈ valuesAt k l) :
    (k, v) ∈ l := by
  obtain ⟨⟨k', v'⟩, hmem, hif⟩ := List.mem_filterMap.mp h
  by_cases hk : k' = k
  · rw [if_pos hk] at hif
    cases hif
    rwa [← hk]
  · rw [if_neg hk] at hif
    cases hif

theorem pairwise_valuesAt {R : ν → ν → Prop} {l : List (κ × ν)}
    (h : l.Pairwise fun a b => a.1 = b.1 → R a.2 b.2) (k : κ) : (valuesAt k l).Pairwise R := by
  refine List.pairwise_filterMap.mpr (h.imp fun hab v hv w hw => ?_)
  split_ifs at hv hw with ha hb
  cases hv
  cases hw
  exact hab (ha.trans hb.symm)

/-- **SLOT RULE**: values of a kind that can be merged, into one of that kind, fill a slot. -/
theorem mergeSlot_rule {P : ν → Prop}
    (hP : ∀ a b, P a → P b → ∃ c, merge a b = some c ∧ P c) {e : Option ν} {vs : List ν}
    (he : ∀ v ∈ e, P v) (hvs : ∀ v ∈ vs, P v) :
    ∃ r, mergeSlot merge e vs = some r ∧ ∀ v ∈ r, P v := by
  induction vs generalizing e with
  | nil => exact ⟨e, rfl, he⟩
  | cons v vs ih =>
      have hv : P v := hvs v List.mem_cons_self
      have hrest : ∀ w ∈ vs, P w := fun w hw => hvs w (List.mem_cons_of_mem _ hw)
      cases e with
      | none =>
          refine ih (e := some v) (fun w hw => ?_) hrest
          rw [← Option.mem_some.mp hw]
          exact hv
      | some e =>
          obtain ⟨c, hc, hPc⟩ := hP e v (he e rfl) hv
          obtain ⟨r, hr, hPr⟩ := ih (e := some c) (fun w hw => by
            rw [← Option.mem_some.mp hw]
            exact hPc) hrest
          refine ⟨r, ?_, hPr⟩
          show (merge e v).bind _ = _
          rw [hc]
          exact hr

/-- What merging keeps, a slot keeps. -/
theorem mergeSlot_inherits {Q : ν → Prop} (hQ : ∀ a b c, merge a b = some c → Q a → Q b → Q c)
    {e : Option ν} {vs : List ν} {r : Option ν} (h : mergeSlot merge e vs = some r)
    (hvs : ∀ v ∈ e.toList ++ vs, Q v) : ∀ c ∈ r, Q c := by
  induction vs generalizing e with
  | nil =>
      cases h
      intro c hc
      cases hc
      exact hvs c List.mem_cons_self
  | cons v vs ih =>
      cases e with
      -- the first value is stored as it is
      | none => exact ih (e := some v) h hvs
      | some e =>
          obtain ⟨c, hc, h⟩ := Option.bind_eq_some_iff.mp h
          refine ih (e := some c) h fun w hw => ?_
          rcases List.mem_cons.mp hw with rfl | hw
          · exact hQ e v w hc (hvs e List.mem_cons_self)
              (hvs v (List.mem_cons_of_mem _ List.mem_cons_self))
          · exact hvs w (List.mem_cons_of_mem _ (List.mem_cons_of_mem _ hw))

/-- **JOIN RULE**: if merging safe values covers both, and what two values are safe for their
    merge is safe for, then a slot covers values that are pairwise safe. -/
theorem mergeSlot_covers (Safe Covers : ν → ν → Prop) (hrefl : ∀ a, Covers a a)
    (htrans : ∀ a b c, Covers c b → Covers b a → Covers c a)
    (hsafe : ∀ a b c v, merge a b = some c → Safe a v → Safe b v → Safe c v)
    (hcovers : ∀ a b c, merge a b = some c → Safe a b → Covers c a ∧ Covers c b)
    {e : Option ν} {vs : List ν} {r : Option ν} (h : mergeSlot merge e vs = some r)
    (hpairs : (e.toList ++ vs).Pairwise Safe) :
    ∀ v ∈ e.toList ++ vs, ∃ c ∈ r, Covers c v := by
  induction vs generalizing e with
  | nil =>
      cases h
      intro v hv
      rw [List.append_nil, Option.mem_toList] at hv
      exact ⟨v, hv, hrefl v⟩
  | cons v vs ih =>
      cases e with
      | none => exact ih (e := some v) h hpairs
      | some e =>
          -- the merged value takes the place of the two, and is safe with what is to come
          obtain ⟨c, hc, h⟩ := Option.bind_eq_some_iff.mp h
          obtain ⟨hev, hpairs⟩ := List.pairwise_cons.mp hpairs
          obtain ⟨hvs, hpairs⟩ := List.pairwise_cons.mp hpairs
          have hslot := ih (e := some c) h (List.pairwise_cons.mpr
            ⟨fun w hw => hsafe e v c w hc (hev w (List.mem_cons_of_mem _ hw)) (hvs w hw), hpairs⟩)
          obtain ⟨d, hd, hdc⟩ := hslot c List.mem_cons_self
          obtain ⟨hce, hcv⟩ := hcovers e v c hc (hev v List.mem_cons_self)
          intro w hw
          rcases List.mem_cons.mp hw with rfl | hw
          · exact ⟨d, hd, htrans _ _ _ hdc hce⟩
          · rcases List.mem_cons.mp hw with rfl | hw
            · exact ⟨d, hd, htrans _ _ _ hdc hcv⟩
            · exact hslot w (List.mem_cons_of_mem _ hw)

/-- One step is one step of the slot it touches. -/
theorem mergeInto_slot {map map' : OrderedMap κ ν} {k k' : κ} {v : ν}
    (h : mergeInto merge map (k', v) = some map') (vs : List ν) :
    (if k' = k then mergeSlot merge (map.find k) (v :: vs) else mergeSlot merge (map.find k) vs)
      = mergeSlot merge (map'.find k) vs := by
  rw [mergeInto] at h
  cases hf : map.find k' with
  | none =>
      rw [hf] at h
      cases h
      rw [OrderedMap.find_insert]
      by_cases hk : k' = k
      · subst hk
        rw [if_pos rfl, if_pos rfl, hf]
        rfl
      · rw [if_neg hk, if_neg (Ne.symm hk)]
  | some e =>
      rw [hf] at h
      obtain ⟨e', he', rfl⟩ := Option.map_eq_some_iff.mp h
      rw [OrderedMap.find_insert]
      by_cases hk : k' = k
      · subst hk
        rw [if_pos rfl, if_pos rfl, hf]
        show (merge e v).bind _ = _
        rw [he']
        rfl
      · rw [if_neg hk, if_neg (Ne.symm hk)]

/-- **EVERY SLOT IS ITS OWN FOLD.** -/
theorem find_foldlM {l : List (κ × ν)} {map map' : OrderedMap κ ν}
    (h : l.foldlM (mergeInto merge) map = some map') (k : κ) :
    mergeSlot merge (map.find k) (valuesAt k l) = some (map'.find k) := by
  induction l generalizing map with
  | nil =>
      cases h
      rfl
  | cons e l ih =>
      obtain ⟨k', v⟩ := e
      rw [List.foldlM_cons] at h
      obtain ⟨map1, h1, h⟩ := Option.bind_eq_some_iff.mp h
      -- the step moves a value from the list into its slot
      have hstep := mergeInto_slot h1 (k := k) (valuesAt k l)
      by_cases hk : k' = k
      · subst hk
        rw [if_pos rfl] at hstep
        rw [valuesAt_cons_self, hstep, ih h]
      · rw [if_neg hk] at hstep
        rw [valuesAt_cons_of_ne hk, hstep, ih h]

/-- The map exists if every slot does. -/
theorem exists_foldlM {l : List (κ × ν)} {map : OrderedMap κ ν}
    (h : ∀ k, (mergeSlot merge (map.find k) (valuesAt k l)).isSome) :
    ∃ map', l.foldlM (mergeInto merge) map = some map' := by
  induction l generalizing map with
  | nil => exact ⟨map, rfl⟩
  | cons e l ih =>
      obtain ⟨k', v⟩ := e
      obtain ⟨map1, h1⟩ : ∃ map1, mergeInto merge map (k', v) = some map1 := by
        have hslot := h k'
        rw [valuesAt_cons_self] at hslot
        rw [mergeInto]
        cases hf : map.find k' with
        | none => exact ⟨_, rfl⟩
        | some e =>
            rw [hf] at hslot
            obtain ⟨w, hw⟩ := Option.isSome_iff_exists.mp hslot
            obtain ⟨e', he', -⟩ := Option.bind_eq_some_iff.mp hw
            exact ⟨_, congrArg (Option.map (map.insert k')) he'⟩
      -- every slot still has a fold after the step
      obtain ⟨map', hmap'⟩ := @ih map1 fun k => by
        have hslot := h k
        have hstep := mergeInto_slot h1 (k := k) (valuesAt k l)
        by_cases hk : k' = k
        · subst hk
          rw [if_pos rfl] at hstep
          rw [valuesAt_cons_self, hstep] at hslot
          exact hslot
        · rw [if_neg hk] at hstep
          rw [valuesAt_cons_of_ne hk, hstep] at hslot
          exact hslot
      refine ⟨map', ?_⟩
      rw [List.foldlM_cons, h1]
      exact hmap'

/-- **MAP RULE**: if each key has its own kind of values, and values of that kind can be merged
    into one, then the map is filled, with values of their key's kind. -/
theorem foldlM_rule {P : κ → ν → Prop}
    (hP : ∀ k a b, P k a → P k b → ∃ c, merge a b = some c ∧ P k c) {l : List (κ × ν)}
    {map : OrderedMap κ ν} (hmap : ∀ k, ∀ v ∈ map.find k, P k v) (hl : ∀ e ∈ l, P e.1 e.2) :
    ∃ map', l.foldlM (mergeInto merge) map = some map' ∧ ∀ k, ∀ v ∈ map'.find k, P k v := by
  have hslot : ∀ k, ∃ r, mergeSlot merge (map.find k) (valuesAt k l) = some r ∧ ∀ v ∈ r, P k v :=
    fun k => mergeSlot_rule (hP k) (hmap k) fun v hv => hl (k, v) (mem_of_mem_valuesAt hv)
  obtain ⟨map', hmap'⟩ := @exists_foldlM _ _ _ merge l map fun k => by
    obtain ⟨r, hr, -⟩ := hslot k
    exact Option.isSome_iff_exists.mpr ⟨r, hr⟩
  refine ⟨map', hmap', fun k => ?_⟩
  obtain ⟨r, hr, hPr⟩ := hslot k
  rw [find_foldlM hmap' k] at hr
  cases hr
  exact hPr

/-- What is stored for a key that has values: the first one merged with the others. -/
theorem find_mergeAll {l : List (κ × ν)} {map : OrderedMap κ ν} (h : mergeAll merge l = some map)
    (k : κ) : mergeSlot merge none (valuesAt k l) = some (map.find k) :=
  find_foldlM h k

theorem mergeAll_rule {P : κ → ν → Prop}
    (hP : ∀ k a b, P k a → P k b → ∃ c, merge a b = some c ∧ P k c) {l : List (κ × ν)}
    (hl : ∀ e ∈ l, P e.1 e.2) :
    ∃ map, mergeAll merge l = some map ∧ ∀ k, ∀ v ∈ map.find k, P k v :=
  foldlM_rule hP (fun k v hv => by cases hv) hl

/-- What is stored for a key has what its values have, if merging keeps it. -/
theorem mergeAll_inherits {Q : ν → Prop} (hQ : ∀ a b c, merge a b = some c → Q a → Q b → Q c)
    {l : List (κ × ν)} {map : OrderedMap κ ν} (h : mergeAll merge l = some map) {k : κ}
    (hl : ∀ e ∈ l, e.1 = k → Q e.2) : ∀ c ∈ map.find k, Q c :=
  mergeSlot_inherits hQ (find_mergeAll h k) fun v hv => hl (k, v) (mem_of_mem_valuesAt hv) rfl

end PbMergingMap
