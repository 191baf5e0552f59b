import PetaBricks.CoschedulingProofs

/-!
# Sliced schedules — the dependencies a loop over slices respects

A sliced meta node runs its members slice by slice along one dimension, in one slice the members
one after the other.  `findValidSchedule` picks the dimension and the order of the loop from the
dependency of the meta node on itself, and accepts a loop when that dependency has no direction
but the one of earlier slices.

What it looks at is what redirecting the edges left in that slot.  `applyRemapping` writes the
slots of all members to the one of the meta node, and the last write, that of the member with
the highest address, stays (`find_applyRemapping_last`).  So a loop that is accepted respects
every dependency on the highest member, and it respects the others exactly when they happen
to be respected: nothing has looked at them (`sliced_respects_iff`).
-/

namespace PbScheduler

open PbOrderedMap PbSaturation Relation

/-! ## What a loop respects -/

/-- The direction of the cells that earlier iterations of the loop compute. -/
def SliceLoop.earlier (loop : SliceLoop) : DirectionT := if loop.forward then D_LT else D_GT

/-- The loop respects a dependency of `a` on `b`: the cells are those of earlier slices, or of
    the same slice when `b` comes before `a` in it, which is in address order. -/
def SliceLoop.Respects (loop : SliceLoop) (a b : Node) (d : DependencyDirection) : Prop :=
  d.mask loop.dimension &&& ~~~ (loop.earlier ||| if b < a then D_EQ else D_NONE) = 0

instance (loop : SliceLoop) (a b : Node) (d : DependencyDirection) :
    Decidable (loop.Respects a b d) :=
  inferInstanceAs (Decidable (_ = _))

/-- Directions among allowed ones, with something else allowed. -/
theorem and_not_of_or {x y o e : DirectionT} (hxy : x ||| y = y) (hy : y &&& ~~~ o = 0) :
    x &&& ~~~ (o ||| e) = 0 := by
  ext i hi
  have hzero : (0 : DirectionT)[i] = false := BitVec.getElem_zero hi
  have hxy' : (x[i] || y[i]) = y[i] := by
    rw [← BitVec.getElem_or, hxy]
  have hy' : (y[i] && !o[i]) = false := by
    rw [← BitVec.getElem_not, ← BitVec.getElem_and, hy, hzero]
  rw [BitVec.getElem_and, BitVec.getElem_not, BitVec.getElem_or, hzero]
  cases hx : x[i] with
  | false => rfl
  | true =>
      rw [hx, Bool.true_or] at hxy'
      rw [← hxy', Bool.true_and, Bool.not_eq_false'] at hy'
      rw [hy']
      rfl

/-- A dependency below one that only has directions of earlier slices is respected. -/
theorem SliceLoop.respects_of_le {loop : SliceLoop} {a b : Node} {d e : DependencyDirection}
    (hle : d ≤ e) (hacc : e.mask loop.dimension &&& ~~~ loop.earlier = 0) :
    loop.Respects a b d :=
  and_not_of_or (DependencyDirection.mask_or_of_le hle loop.dimension) hacc

/-! ## What redirecting leaves in a slot -/

/-- **THE LAST OF THE REDIRECTED SLOTS STAYS**: of the slots that are written to one, the one
    with the highest address. -/
theorem ScheduleDependencies.find_applyRemapping_last {D : ScheduleDependencies}
    {map : ChoiceDepGraphNodeRemapping} {m top : Node} (htop : map.find top = some m)
    (hlast : ∀ k ∈ D, (map.find k).getD k = m → k ≤ top) {v : DependencyInformation}
    (hv : D.find top = some v) : (applyRemapping D map).find m = some v := by
  have hne : map.entries ≠ [] := by
    intro hnil
    exact OrderedMap.entries_eq_nil.mp hnil top (OrderedMap.mem_iff.mpr ⟨m, htop⟩)
  rw [applyRemapping, if_neg hne]
  obtain ⟨pre, post, hsplit⟩ := List.append_of_mem (OrderedMap.mem_entries.mpr hv)
  -- the slots after this one have higher addresses, so none of them is redirected here
  have hpost : ∀ e ∈ post, (map.find e.1).getD e.1 ≠ m := by
    intro e he heq
    have hmem : e ∈ D.entries := hsplit ▸ List.mem_append_right _ (List.mem_cons_of_mem _ he)
    have hle := hlast e.1 (OrderedMap.mem_keys.mp (List.mem_map_of_mem hmem)) heq
    have hsorted := D.sorted
    rw [hsplit, Sorted, List.pairwise_append] at hsorted
    exact absurd ((List.pairwise_cons.mp hsorted.2.1).1 e he) (Nat.not_lt_of_le hle)
  have hfold : ∀ d : ScheduleDependencies,
      (post.foldl (fun d i => d.insert ((map.find i.1).getD i.1) i.2) d).find m = d.find m := by
    clear hsplit
    induction post with
    | nil => intro d; rfl
    | cons e rest ih =>
        intro d
        rw [List.foldl_cons, ih (fun e he => hpost e (List.mem_cons_of_mem _ he)),
          OrderedMap.find_insert, if_neg (hpost e List.mem_cons_self).symm]
  rw [hsplit, List.foldl_append, List.foldl_cons, hfold, OrderedMap.find_insert, htop]
  exact if_pos rfl

namespace StaticScheduler

/-! ## What is accepted -/

/-- A loop that is picked goes against no direction of the dependency it is picked for. -/
theorem findSlice_accepts {g : StaticScheduler} {set : ChoiceDepGraphNodeSet}
    {dep : DependencyDirection} {n : Nat} {loop : SliceLoop}
    (h : g.findSlice set dep n = some loop) :
    dep.mask loop.dimension &&& ~~~ loop.earlier = 0 := by
  induction n with
  | zero => cases h
  | succ d ih =>
      rw [findSlice] at h
      cases hext : g.matchExtents d none none set.keys with
      | none =>
          rw [hext] at h
          exact ih h
      | some ends =>
          rw [hext] at h
          simp only at h
          by_cases hlt : dep.mask d &&& ~~~ D_LT = 0
          · rw [if_pos hlt] at h
            cases h
            exact hlt
          · rw [if_neg hlt] at h
            by_cases hgt : dep.mask d &&& ~~~ D_GT = 0
            · rw [if_pos hgt] at h
              cases h
              exact hgt
            · rw [if_neg hgt] at h
              exact ih h

/-- The node `m` accepts the loop for its members. -/
def Accepts (g : StaticScheduler) (choice : RuleChoiceAssignment) (m : Node)
    (set : ChoiceDepGraphNodeSet) (loop : SliceLoop) : Prop :=
  (g.findValidSchedule choice m).2 = true ∧
    (g.findValidSchedule choice m).1.kind m = .sliced set (some loop)

/-- What a node accepts is for its own members, and goes against no direction of its dependency
    on itself. -/
theorem Accepts.spec {g : StaticScheduler} {choice : RuleChoiceAssignment} {m : Node}
    {set : ChoiceDepGraphNodeSet} {loop : SliceLoop} (h : g.Accepts choice m set loop) :
    set = (g.kind m).originalNodes ∧
      ∀ v, (g.indirectDepends m).find m = some v →
        v.direction.mask loop.dimension &&& ~~~ loop.earlier = 0 := by
  obtain ⟨hvalid, hkind⟩ := h
  rw [findValidSchedule] at hvalid hkind
  cases hk : g.kind m with
  | basic =>
      rw [hk] at hkind
      cases hk.symm.trans hkind
  | multiOutput set' =>
      rw [hk] at hkind
      cases hk.symm.trans hkind
  | sliced set' loop' =>
      simp only [hk] at hvalid hkind
      split at hvalid
      · cases hvalid
      · rename_i loop'' hslice
        rw [hslice] at hkind
        simp only [Function.update_self] at hkind
        cases hkind
        refine ⟨rfl, ?_⟩
        intro v hv
        have hacc := findSlice_accepts hslice
        rw [OrderedMap.find_update, if_pos rfl, hv] at hacc
        exact hacc

/-! ## What is respected -/

/-- The merge of `g` asks the meta node `m` for a schedule, in the graph `h`. -/
def Asks (g : StaticScheduler) (choice : RuleChoiceAssignment) (alloc : Nat → Node) (m : Node)
    (h : StaticScheduler) : Prop :=
  ∃ s pre post, g.coscheduleNodes alloc = .ok s ∧ s.newMetaNodes = pre ++ m :: post ∧
    validateMetaNodes choice (remapNodes s) pre = .ok h

/-- The loop respects every direct dependency of one member on another, or on itself. -/
def AllRespected (g : StaticScheduler) (set : ChoiceDepGraphNodeSet) (loop : SliceLoop) : Prop :=
  ∀ a ∈ set, ∀ b ∈ set, ∀ w, (g.directDepends a).find b = some w →
    loop.Respects a b w.direction

/-- The loop respects every direct dependency on a member that does not have the highest
    address. -/
def LowerRespected (g : StaticScheduler) (set : ChoiceDepGraphNodeSet) (loop : SliceLoop) :
    Prop :=
  ∀ a ∈ set, ∀ b ∈ set, (∃ c ∈ set, b < c) → ∀ w, (g.directDepends a).find b = some w →
    loop.Respects a b w.direction

section Asked

variable {g : StaticScheduler} {choice : RuleChoiceAssignment} {alloc : Nat → Node} {m : Node}
  {h : StaticScheduler} {set : ChoiceDepGraphNodeSet} {loop : SliceLoop}

/-- **A LOOP THAT IS ACCEPTED RESPECTS THE DEPENDENCIES ON THE HIGHEST MEMBER**: they are below
    the slot that stays. -/
theorem respects_highest (hg : Closed g) (hinj : Function.Injective alloc)
    (hfresh : ∀ j, alloc j ∉ g.allNodes) (hasks : g.Asks choice alloc m h)
    (hacc : h.Accepts choice m set loop) {a b : Node} (ha : a ∈ set) (hb : b ∈ set)
    (hhigh : ∀ c ∈ set, c ≤ b) {w : DependencyInformation}
    (hw : (g.directDepends a).find b = some w) : loop.Respects a b w.direction := by
  obtain ⟨s, pre, post, hs, hnew, hvalid⟩ := hasks
  obtain ⟨hc, _⟩ := coscheduleNodes_spec hg hinj hfresh hs
  have hm : m ∈ s.newMetaNodes := hnew ▸ List.mem_append_right _ List.mem_cons_self
  have hpre : m ∉ pre := by
    intro hmem
    have hnodup := (List.nodup_append.mp (hc.nodup hg hinj hfresh)).2.1
    rw [hnew] at hnodup
    exact (List.nodup_append.mp hnodup).2.2 m hmem m List.mem_cons_self rfl
  obtain ⟨R, I, hremap, hmaps⟩ := remapNodes_spec hg hinj hfresh hc
  obtain ⟨I', K, rfl, hframe⟩ := validateMetaNodes_eq hvalid
  obtain ⟨hI, hK⟩ := hframe m hpre
  rw [hremap] at hI hK
  obtain ⟨hset, hslot⟩ := hacc.spec
  have hmembers : set = (s.graph.kind m).originalNodes :=
    hset.trans (congrArg NodeKind.originalNodes hK)
  subst hmembers
  obtain ⟨i, hi, hcomponent⟩ := hc.component m hm
  have hnodes : ∀ x ∈ (s.graph.kind m).originalNodes, x ∈ g.allNodes :=
    fun x hx => component_nodes hg hi ((hcomponent x).mp hx)
  obtain ⟨v, hv, hle⟩ := (hg.saturated a (hnodes a ha)).1 b w hw
  obtain ⟨v', hv', hle'⟩ := hc.indirect m hm a ha b v hv
  -- of the slots redirected to the meta node, this one is written last
  have hlast : ∀ k ∈ s.graph.indirectDepends m, (s.mapping.find k).getD k = m → k ≤ b := by
    intro k hk hkm
    obtain ⟨j, hj, hkj⟩ := hc.indirect_mem m hm k hk
    cases hfind : s.mapping.find k with
    | some m' =>
        rw [hfind] at hkm
        obtain rfl : m' = m := hkm
        exact hhigh k (hc.mapped k m' hfind).2.2
    | none =>
        rw [hfind] at hkm
        obtain rfl : k = m := hkm
        have hreach := (mem_iff_transGen hg.graph hg.sound hg.saturated (hnodes j hj)).mp hkj
        have hkn := hg.graph.mem_of_reflTransGen (hnodes j hj) hreach.to_reflTransGen
        exact absurd hkn (hc.meta_not_mem hfresh hm)
  have hstays : (I' m).find m = some v' := by
    rw [show I' m = I m from hI, (hmaps m (List.mem_append_right _ hm)).2]
    exact ScheduleDependencies.find_applyRemapping_last (hc.member m hm b hb) hlast hv'
  exact SliceLoop.respects_of_le (DependencyInformation.le_iff.mp (hle.trans hle')).2
    (hslot v' hstays)

/-- A loop that is accepted respects all dependencies exactly when it respects those on the
    members that do not have the highest address. -/
theorem allRespected_iff (hg : Closed g) (hinj : Function.Injective alloc)
    (hfresh : ∀ j, alloc j ∉ g.allNodes) (hasks : g.Asks choice alloc m h)
    (hacc : h.Accepts choice m set loop) :
    g.AllRespected set loop ↔ g.LowerRespected set loop := by
  constructor
  · intro hall a ha b hb _ w hw
    exact hall a ha b hb w hw
  · intro hlower a ha b hb w hw
    by_cases hhigher : ∃ c ∈ set, b < c
    · exact hlower a ha b hb hhigher w hw
    · push Not at hhigher
      exact respects_highest hg hinj hfresh hasks hacc ha hb hhigher hw

end Asked

/-- **A LOOP THAT IS ACCEPTED RESPECTS THE DEPENDENCIES OF ITS MEMBERS EXACTLY WHEN IT RESPECTS
    THOSE ON ALL MEMBERS BUT THE HIGHEST**, whatever rules are chosen. -/
theorem sliced_respects_iff {g : StaticScheduler} (hg : WellFormed g)
    (choice : RuleChoiceAssignment) :
    ∃ fuel₀ g₂, (∀ fuel, fuel₀ ≤ fuel → g.chooseRules choice fuel = .ok g₂) ∧
      ∀ alloc : Nat → Node, Function.Injective alloc → (∀ j, alloc j ∉ g.allNodes) →
        ∀ m h, g₂.Asks choice alloc m h → ∀ set loop, h.Accepts choice m set loop →
          (g₂.AllRespected set loop ↔ g₂.LowerRespected set loop) := by
  obtain ⟨fuel₀, R, I, hrun, _, hclosed⟩ := chooseRules_spec hg choice
  refine ⟨fuel₀, g.withDepends R I, hrun, ?_⟩
  intro alloc hinj hfresh m h hasks set loop hacc
  exact allRespected_iff hclosed hinj hfresh hasks hacc

/-! ## Two regions that read each other -/

/-- Nodes 0 and 1 are outputs over the same extents.  The rule of 0 reads cells of 1 that are
    before its own in both dimensions; the rule of 1 reads cells of 0 that are before its own in
    the first dimension and in the given direction in the second. -/
def crossed (back : DirectionT) : StaticScheduler :=
  { (default : StaticScheduler) with
    allNodes := [0, 1]
    ruleKind := fun _ => .user 1
    isOutput := fun n => n = 0 ∨ n = 1
    choices := fun n => if n = 0 ∨ n = 1 then [n] else []
    minCoord := fun _ _ => "0"
    maxCoord := fun _ _ => "n"
    directDependsOriginal := fun n =>
      if n = 0 then .ofList [(1, ⟨{0}, ⟨[D_LT, D_LT]⟩⟩)]
      else if n = 1 then .ofList [(0, ⟨{1}, ⟨[D_LT, back]⟩⟩)] else ∅
    outputsOriginal := .ofList [(0, ()), (1, ())] }

theorem wellFormed_crossed (back : DirectionT) : WellFormed (crossed back) := by
  have hedge : ∀ n k v, ((crossed back).directDependsOriginal n).find k = some v →
      (n = 0 ∧ k = 1 ∨ n = 1 ∧ k = 0) ∧ v.rules.Nonempty := by
    intro n k v hv
    change OrderedMap.find (if n = 0 then _ else if n = 1 then _ else ∅) k = some v at hv
    have hmem := OrderedMap.mem_entries.mpr hv
    split at hmem
    · obtain ⟨rfl, rfl⟩ := Prod.mk.inj (List.mem_singleton.mp hmem)
      exact ⟨Or.inl ⟨‹_›, rfl⟩, 0, Finset.mem_singleton_self 0⟩
    · split at hmem
      · obtain ⟨rfl, rfl⟩ := Prod.mk.inj (List.mem_singleton.mp hmem)
        exact ⟨Or.inr ⟨‹_›, rfl⟩, 1, Finset.mem_singleton_self 1⟩
      · exact absurd hmem List.not_mem_nil
  have hmem : ∀ n k, k ∈ (crossed back).directDependsOriginal n →
      n = 0 ∧ k = 1 ∨ n = 1 ∧ k = 0 := by
    intro n k hk
    obtain ⟨v, hv⟩ := OrderedMap.mem_iff.mp hk
    exact (hedge n k v hv).1
  have hnodes : (crossed back).allNodes = [0, 1] := rfl
  refine ⟨?_, ?_, ?_, fun n k v hv => (hedge n k v hv).2, ?_, ?_, ?_⟩
  · rw [hnodes]
    decide
  · intro n k hk
    rw [hnodes]
    rcases hmem n k hk with ⟨rfl, _⟩ | ⟨rfl, _⟩ <;> decide
  · intro n k hk
    rw [hnodes]
    rcases hmem n k hk with ⟨_, rfl⟩ | ⟨_, rfl⟩ <;> decide
  · intro n hn
    exact absurd hn (OrderedMap.not_mem_empty n)
  · intro n hn
    exact absurd hn (OrderedMap.not_mem_empty n)
  · intro n hn
    rw [hnodes]
    have hkeys : n ∈ [0, 1] := OrderedMap.mem_keys.mpr hn
    rcases List.mem_pair.mp hkeys with rfl | rfl <;> exact ⟨by decide, rfl⟩

/-- Each node is computed by its own rule. -/
def chooseOwn : RuleChoiceAssignment := fun n => if n = 0 ∨ n = 1 then some n else none

def pair : ChoiceDepGraphNodeSet := .ofList [(0, ()), (1, ())]

/-- Forward along the second dimension. -/
def alongSecond : SliceLoop := ⟨1, true, some "0", some "n"⟩

/-- The answer of the meta node and its class, the meta nodes, and the dependencies of both
    nodes. -/
def crossedRun (back : DirectionT) :
    Option (Bool × NodeKind × List Node × ScheduleDependencies × ScheduleDependencies) := do
  let g₂ ← ((crossed back).chooseRules chooseOwn 10).toOption
  let s ← (g₂.coscheduleNodes (· + 2)).toOption
  let answer := (remapNodes s).findValidSchedule chooseOwn 2
  some (answer.2, answer.1.kind 2, s.newMetaNodes, g₂.directDepends 0, g₂.directDepends 1)

/-- What a run that accepts says of the graphs it goes through. -/
theorem asks_of_crossedRun {back : DirectionT} {d₀ d₁ : ScheduleDependencies}
    (h : crossedRun back = some (true, .sliced pair (some alongSecond), [2], d₀, d₁)) :
    ∃ g₂ h, (crossed back).chooseRules chooseOwn 10 = .ok g₂ ∧ g₂.Asks chooseOwn (· + 2) 2 h ∧
      h.Accepts chooseOwn 2 pair alongSecond ∧ g₂.directDepends 0 = d₀ ∧
      g₂.directDepends 1 = d₁ := by
  rw [crossedRun] at h
  obtain ⟨g₂, h₂, h⟩ := Option.bind_eq_some_iff.mp h
  obtain ⟨s, hs, h⟩ := Option.bind_eq_some_iff.mp h
  simp only [Option.some.injEq, Prod.mk.injEq] at h
  obtain ⟨hvalid, hkind, hmeta, h₀, h₁⟩ := h
  exact ⟨g₂, remapNodes s, toOption_eq_some h₂,
    ⟨s, [], [], toOption_eq_some hs, hmeta, rfl⟩, ⟨hvalid, hkind⟩, h₀, h₁⟩

/-- When the rule of node 1 reads cells that are before its own in both dimensions, the loop
    respects all dependencies. -/
theorem sliced_respects_iff_crossed :
    ∃ g₂ h, (crossed D_LT).chooseRules chooseOwn 10 = .ok g₂ ∧
      g₂.Asks chooseOwn (· + 2) 2 h ∧ h.Accepts chooseOwn 2 pair alongSecond ∧
      g₂.AllRespected pair alongSecond := by
  have hrun : crossedRun D_LT = some (true, .sliced pair (some alongSecond), [2],
      .ofList [(1, ⟨{0}, ⟨[D_LT, D_LT]⟩⟩)], .ofList [(0, ⟨{1}, ⟨[D_LT, D_LT]⟩⟩)]) := by
    decide +kernel
  obtain ⟨g₂, h, hchoose, hasks, hacc, h₀, h₁⟩ := asks_of_crossedRun hrun
  obtain ⟨fuel₀, g₂', hall, hiff⟩ := sliced_respects_iff (wellFormed_crossed D_LT) chooseOwn
  have hsame : g₂' = g₂ := by
    have hmore := computeIndirectDependencies_mono hchoose (Nat.le_max_right fuel₀ 10)
    exact Except.ok.inj ((hall _ (Nat.le_max_left fuel₀ 10)).symm.trans hmore)
  subst hsame
  have hfresh : ∀ j, j + 2 ∉ (crossed D_LT).allNodes := by
    intro j hj
    have hlt : ∀ n ∈ (crossed D_LT).allNodes, n < 2 := by decide
    exact absurd (hlt _ hj) (Nat.not_lt_of_le (Nat.le_add_left 2 j))
  refine ⟨g₂', h, hchoose, hasks, hacc, ?_⟩
  rw [hiff (· + 2) (fun a b h => Nat.add_right_cancel h) hfresh 2 h hasks pair alongSecond hacc]
  intro a ha b hb _ w hw
  have hentries : ∀ e ∈ (g₂'.directDepends a).entries, e.2.direction = ⟨[D_LT, D_LT]⟩ := by
    have hkeys : a ∈ [0, 1] := OrderedMap.mem_keys.mpr ha
    rcases List.mem_pair.mp hkeys with rfl | rfl
    · rw [h₀]
      decide
    · rw [h₁]
      decide
  rw [SliceLoop.Respects, hentries _ (OrderedMap.mem_entries.mpr hw)]
  split <;> decide

/-- **A DEPENDENCY ON A LATER SLICE IS ACCEPTED**: when the rule of node 1 reads cells that are
    behind its own in the second dimension, the loop still runs forward along it. -/
theorem crossed_not_respected :
    ∃ g₂ h, (crossed D_GT).chooseRules chooseOwn 10 = .ok g₂ ∧
      g₂.Asks chooseOwn (· + 2) 2 h ∧ h.Accepts chooseOwn 2 pair alongSecond ∧
      ¬ g₂.AllRespected pair alongSecond := by
  have hrun : crossedRun D_GT = some (true, .sliced pair (some alongSecond), [2],
      .ofList [(1, ⟨{0}, ⟨[D_LT, D_LT]⟩⟩)], .ofList [(0, ⟨{1}, ⟨[D_LT, D_GT]⟩⟩)]) := by
    decide +kernel
  obtain ⟨g₂, h, hchoose, hasks, hacc, _, h₁⟩ := asks_of_crossedRun hrun
  refine ⟨g₂, h, hchoose, hasks, hacc, ?_⟩
  intro hall
  have hrespects := hall 1 (by decide) 0 (by decide) ⟨{1}, ⟨[D_LT, D_GT]⟩⟩ (by rw [h₁]; decide)
  exact absurd hrespects (by decide)

end StaticScheduler

end PbScheduler
