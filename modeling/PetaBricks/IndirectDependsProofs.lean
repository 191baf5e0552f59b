import PetaBricks.SchedulerGraphProofs

/-!
# Indirect dependencies — the closure the merge works on

Three facts about the graph a choice of rules leaves, before anything is merged:

  * the direct dependencies of a node are those of its chosen rule
    (`directDepends_of_choice`), unless that rule has none and the node has others: then the
    selection is empty, which `directDepends` reads as "not selected yet";
  * on a graph whose edges name rules the closure loop stops, and the table it leaves is the
    transitive closure, each slot holding the union of the edges that can end a chain to it
    (`indirectDepends_closure`);
  * `getStronglyConnectedComponent` reads the component of a node off that table
    (`mem_component`).
-/

namespace PbScheduler

open PbOrderedMap PbSaturation Relation

/-- A dependency is the union of a set of dependencies: its rules and, dimension by dimension,
    its directions are theirs, and it is as long as the longest. -/
structure IsUnion (S : Set DependencyInformation) (v : DependencyInformation) : Prop where
  rules : ∀ r, r ∈ v.rules ↔ ∃ w ∈ S, r ∈ w.rules
  direction : ∀ i j, (v.direction.mask i).getLsbD j = true ↔
    ∃ w ∈ S, (w.direction.mask i).getLsbD j = true
  size : ∀ s, v.direction.size ≤ s ↔ ∀ w ∈ S, w.direction.size ≤ s

/-! ## Ideals of dependency information -/

/-- The dependencies that do not name one rule. -/
def without (r : Rule) : Set DependencyInformation := {w | r ∉ w.rules}

theorem without_sup (r : Rule) : SupClosed (without r) := by
  intro a ha b hb hab
  rw [DependencyInformation.sup_def] at hab
  rcases Finset.mem_union.mp hab with h | h
  · exact ha h
  · exact hb h

theorem without_lower (r : Rule) : IsLowerSet (without r) :=
  fun _ _ hle hb ha => hb ((DependencyInformation.le_iff.mp hle).1 ha)

/-- The dependencies without one direction in one dimension. -/
def undirected (i j : Nat) : Set DependencyInformation :=
  {w | (w.direction.mask i).getLsbD j = false}

theorem undirected_sup (i j : Nat) : SupClosed (undirected i j) := by
  intro a ha b hb
  show ((a ⊔ b).direction.mask i).getLsbD j = false
  rw [DependencyInformation.sup_def, DependencyDirection.mask_sup, BitVec.getLsbD_or,
    show (a.direction.mask i).getLsbD j = false from ha,
    show (b.direction.mask i).getLsbD j = false from hb]
  rfl

theorem undirected_lower (i j : Nat) : IsLowerSet (undirected i j) := by
  intro b a hle hb
  have hor := DependencyDirection.mask_or_of_le (DependencyInformation.le_iff.mp hle).2 i
  have hbit : (b.direction.mask i).getLsbD j = false := hb
  rw [← hor, BitVec.getLsbD_or, Bool.or_eq_false_iff] at hbit
  exact hbit.1

/-- The dependencies of at most some length. -/
def short (s : Nat) : Set DependencyInformation := {w | w.direction.size ≤ s}

theorem short_sup (s : Nat) : SupClosed (short s) := by
  intro a ha b hb
  show (a ⊔ b).direction.size ≤ s
  rw [DependencyInformation.sup_def, DependencyDirection.size_sup]
  exact max_le ha hb

theorem short_lower (s : Nat) : IsLowerSet (short s) :=
  fun _ _ hle hb =>
    (DependencyDirection.size_le (DependencyInformation.le_iff.mp hle).2).trans hb

/-- A dependency that lies in an ideal exactly when a set of dependencies does is their
    union. -/
theorem isUnion_of_ideals {S : Set DependencyInformation} {v : DependencyInformation}
    (h : ∀ P : Set DependencyInformation, SupClosed P → IsLowerSet P →
      (v ∈ P ↔ ∀ w ∈ S, w ∈ P)) : IsUnion S v := by
  constructor
  · intro r
    have := h _ (without_sup r) (without_lower r)
    constructor
    · intro hr
      by_contra hno
      push Not at hno
      exact (this.mpr hno) hr
    · rintro ⟨w, hw, hr⟩
      by_contra hv
      exact this.mp hv w hw hr
  · intro i j
    have := h _ (undirected_sup i j) (undirected_lower i j)
    constructor
    · intro hbit
      by_contra hno
      push Not at hno
      have hv : v ∈ undirected i j :=
        this.mpr (fun w hw => Bool.eq_false_iff.mpr (hno w hw))
      rw [show (v.direction.mask i).getLsbD j = false from hv] at hbit
      cases hbit
    · rintro ⟨w, hw, hbit⟩
      by_contra hv
      have hw' := this.mp (Bool.eq_false_iff.mpr hv) w hw
      rw [show (w.direction.mask i).getLsbD j = false from hw'] at hbit
      cases hbit
  · intro s
    exact h _ (short_sup s) (short_lower s)

namespace StaticScheduler

/-! ## The dependencies of the chosen rule -/

/-- Some original dependency of a node names the chosen rule. -/
def ChoiceHasDepends (g : StaticScheduler) (choice : Option Rule) (n : Node) : Prop :=
  ∃ k w, (g.directDependsOriginal n).find k = some w ∧ w.contains choice = true

/-- **CHOOSING A RULE SELECTS ITS DEPENDENCIES**: when the chosen rule has a dependency, or the
    node has none at all, what is left are the original dependencies that name the rule, with
    their directions as the rule trims them. -/
theorem directDepends_of_choice (g : StaticScheduler) (map : RuleChoiceAssignment) (n : Node)
    (hreset : g.directDependsRemapped n = ∅)
    (hchoice : g.ChoiceHasDepends (map n) n ∨ g.directDependsOriginal n = ∅) (m : Node)
    (d : DependencyDirection) :
    (∃ v, ((g.applyChoiceRemapping map n).directDepends n).find m = some v ∧
        v.direction = d) ↔
      ∃ w, (g.directDependsOriginal n).find m = some w ∧ w.contains (map n) = true ∧
        g.trimDependency (map n) w.direction = d := by
  have hremapped : (g.applyChoiceRemapping map n).directDependsRemapped n =
      g.chosenDepends (map n) n := by
    rw [applyChoiceRemapping]
    simp only [Function.update_self, hreset]
    rfl
  have hdirect : (g.applyChoiceRemapping map n).directDepends n =
      g.chosenDepends (map n) n := by
    rw [directDepends, hremapped]
    by_cases he : (g.chosenDepends (map n) n).entries = []
    · -- an empty selection falls back to the original edges, so there must be none
      rw [if_pos he]
      rcases hchoice with ⟨k, w, hw, hc⟩ | hnone
      · have hmem : k ∈ g.chosenDepends (map n) n :=
          OrderedMap.mem_iff.mpr ⟨_, find_chosenDepends.mpr ⟨w, hw, hc, rfl⟩⟩
        exact absurd hmem (OrderedMap.entries_eq_nil.mp he k)
      · show g.directDependsOriginal n = _
        rw [chosenDepends, hnone]
        rfl
    · rw [if_neg he]
  rw [hdirect]
  constructor
  · rintro ⟨v, hv, rfl⟩
    obtain ⟨w, hw, hc, rfl⟩ := find_chosenDepends.mp hv
    exact ⟨w, hw, hc, rfl⟩
  · rintro ⟨w, hw, hc, rfl⟩
    exact ⟨_, find_chosenDepends.mpr ⟨w, hw, hc, rfl⟩, rfl⟩

/-- A node whose only dependency names a rule that writes one region and a rule that writes
    two, and is marked as multi output. -/
def sharedOutput : StaticScheduler :=
  { (default : StaticScheduler) with
    allNodes := [0, 1]
    ruleKind := fun r => .user (r + 1)
    choices := fun _ => [0, 1]
    directDependsOriginal := fun n =>
      if n = 0 then .ofList [(1, ⟨{0, 1}, ⟨[D_EQ ||| D_MULTIOUTPUT]⟩⟩)] else ∅ }

/-- Choosing the rule that writes two regions keeps the direction. -/
theorem directDepends_of_choice_shared :
    ∃ v, ((sharedOutput.applyChoiceRemapping (fun _ => some 1) 0).directDepends 0).find 1 =
        some v ∧ v.direction = ⟨[D_EQ ||| D_MULTIOUTPUT]⟩ :=
  (directDepends_of_choice sharedOutput (fun _ => some 1) 0 rfl
    (Or.inl ⟨1, ⟨{0, 1}, ⟨[D_EQ ||| D_MULTIOUTPUT]⟩⟩, by decide, by decide⟩) 1 _).mpr
    ⟨⟨{0, 1}, ⟨[D_EQ ||| D_MULTIOUTPUT]⟩⟩, by decide, by decide, by decide⟩

/-- Choosing the rule that writes one region changes it: the original dependency names the
    chosen rule and has the multi output mark, and no dependency is left that has it. -/
theorem chosen_direction_trimmed :
    ¬ ((∃ v, ((sharedOutput.applyChoiceRemapping (fun _ => some 0) 0).directDepends 0).find 1 =
          some v ∧ v.direction = ⟨[D_EQ ||| D_MULTIOUTPUT]⟩) ↔
        ∃ w, (sharedOutput.directDependsOriginal 0).find 1 = some w ∧
          w.contains (some 0) = true ∧ w.direction = ⟨[D_EQ ||| D_MULTIOUTPUT]⟩) := by
  have hleft : ((sharedOutput.applyChoiceRemapping (fun _ => some 0) 0).directDepends 0).find 1 =
      some ⟨{0, 1}, ⟨[D_EQ]⟩⟩ := by decide
  intro h
  obtain ⟨v, hv, hd⟩ := h.mpr
    ⟨⟨{0, 1}, ⟨[D_EQ ||| D_MULTIOUTPUT]⟩⟩, by decide, by decide, rfl⟩
  rw [hleft] at hv
  rw [← Option.some.inj hv] at hd
  exact absurd hd (by decide)

/-! ## The closure -/

/-- `n` directly depends on `k`. -/
def DependsOn (g : StaticScheduler) : Node → Node → Prop := Edge g.directDepends

/-- The edges that can end a chain of dependencies from `n` to `k`. -/
def lastEdges (g : StaticScheduler) (n k : Node) : Set DependencyInformation :=
  {w | ∃ y, ReflTransGen g.DependsOn n y ∧ (g.directDepends y).find k = some w}

/-- The members of a component, read off the table. -/
theorem mem_getStronglyConnectedComponent {g : StaticScheduler} {n x : Node} :
    x ∈ g.getStronglyConnectedComponent n ↔
      x = n ∨ (n ∈ g.indirectDepends n ∧ x ∈ g.indirectDepends n ∧ n ∈ g.indirectDepends x) := by
  rw [getStronglyConnectedComponent]
  by_cases h : n ∈ g.indirectDepends n
  · rw [if_neg (not_not.mpr h)]
    refine (OrderedMap.mem_foldl_insert_if (fun i => i)
      (fun i => n ∈ g.indirectDepends i)).trans ?_
    rw [single, OrderedMap.mem_insert]
    constructor
    · rintro ((hx | hx) | ⟨i, hi, hn, rfl⟩)
      · exact Or.inl hx
      · exact absurd hx (OrderedMap.not_mem_empty x)
      · exact Or.inr ⟨h, OrderedMap.mem_keys.mp hi, hn⟩
    · rintro (hx | ⟨_, hx, hn⟩)
      · exact Or.inl (Or.inl hx)
      · exact Or.inr ⟨x, OrderedMap.mem_keys.mpr hx, hn, rfl⟩
  · rw [if_pos h, single, OrderedMap.mem_insert]
    constructor
    · rintro (hx | hx)
      · exact Or.inl hx
      · exact absurd hx (OrderedMap.not_mem_empty x)
    · rintro (hx | ⟨hn, _⟩)
      · exact Or.inl hx
      · exact absurd hn h

/-- **THE COMPONENT OF A NODE IS WHAT IT REACHES AND IS REACHED BY**, once the table is the
    closure. -/
theorem mem_component {g : StaticScheduler} (hD : ClosedGraph g.directDepends g.allNodes)
    (hI : Sound g.directDepends g.allNodes g.indirectDepends)
    (hJ : Saturated g.directDepends g.allNodes g.indirectDepends) {n x : Node}
    (hn : n ∈ g.allNodes) :
    x ∈ g.getStronglyConnectedComponent n ↔
      x = n ∨ (TransGen g.DependsOn n x ∧ TransGen g.DependsOn x n) := by
  rw [mem_getStronglyConnectedComponent]
  apply or_congr_right
  constructor
  · rintro ⟨_, hx, hback⟩
    have hreach := (mem_iff_transGen hD hI hJ hn).mp hx
    have hxmem := hD.mem_of_reflTransGen hn hreach.to_reflTransGen
    exact ⟨hreach, (mem_iff_transGen hD hI hJ hxmem).mp hback⟩
  · rintro ⟨hreach, hback⟩
    have hxmem := hD.mem_of_reflTransGen hn hreach.to_reflTransGen
    exact ⟨(mem_iff_transGen hD hI hJ hn).mpr (hreach.trans hback),
      (mem_iff_transGen hD hI hJ hn).mpr hreach,
      (mem_iff_transGen hD hI hJ hxmem).mpr hback⟩

/-- **THE CLOSURE LOOP STOPS AND LEAVES THE TRANSITIVE CLOSURE**: the slots of a node are what
    it reaches by one or more edges, each with the union of the edges that can come last, and
    the component of a node is what it reaches and is reached by. -/
theorem indirectDepends_closure (g : StaticScheduler)
    (htarget : ∀ n ∈ g.allNodes, ∀ k ∈ g.directDepends n, k ∈ g.allNodes)
    (hruled : ∀ n ∈ g.allNodes, ∀ k v, (g.directDepends n).find k = some v →
      v.rules.Nonempty)
    (hreset : ∀ n ∈ g.allNodes, g.indirectDepends n = ∅) :
    ∃ fuel₀ g', (∀ fuel, fuel₀ ≤ fuel → computeIndirectDependencies fuel g = .ok g') ∧
      ∀ n ∈ g.allNodes,
        (∀ k, k ∈ g'.indirectDepends n ↔ TransGen g.DependsOn n k) ∧
        (∀ k v, (g'.indirectDepends n).find k = some v → IsUnion (g.lastEdges n k) v) ∧
        ∀ x, x ∈ g'.getStronglyConnectedComponent n ↔
          x = n ∨ (TransGen g.DependsOn n x ∧ TransGen g.DependsOn x n) := by
  have hD : ClosedGraph g.directDepends g.allNodes := by
    refine ⟨htarget, ?_⟩
    intro n hn k v hv hbot
    -- a dependency that names a rule is not the default one
    have hne := hruled n hn k v hv
    rw [hbot] at hne
    exact Finset.not_nonempty_empty hne
  have hsound : Sound g.directDepends g.allNodes g.indirectDepends := by
    intro n hn k v hv
    rw [hreset n hn] at hv
    cases hv
  have hseeded : Seeded g.directDepends g.allNodes g.indirectDepends := by
    intro n hn
    rw [hreset n hn]
    exact Or.inl rfl
  obtain ⟨fuel₀, I, hsat⟩ :=
    exists_saturate DependencyInformation.rank_strictMono hD hsound hseeded
  obtain ⟨hI, hJ⟩ := saturate_spec hD hsound hseeded hsat
  refine ⟨fuel₀, g.withIndirect I, ?_, ?_⟩
  · intro fuel hle
    rw [computeIndirectDependencies_eq, saturate_mono hsat hle]
  · intro n hn
    refine ⟨fun k => mem_iff_transGen hD hI hJ hn, ?_, ?_⟩
    · intro k v hv
      apply isUnion_of_ideals
      intro P hP hlow
      rw [ideal_iff hD hI hJ hP hlow hn hv]
      constructor
      · rintro h w ⟨y, hy, hw⟩
        exact h y w hy hw
      · intro h y w hy hw
        exact h w ⟨y, hy, hw⟩
    · intro x
      exact mem_component (g := g.withIndirect I) hD hI hJ hn

/-- Two nodes that depend on each other. -/
def cyclePair : StaticScheduler :=
  { (default : StaticScheduler) with
    allNodes := [0, 1]
    directDependsOriginal := fun n =>
      if n = 0 then .ofList [(1, ⟨{0}, ⟨[D_LT]⟩⟩)]
      else if n = 1 then .ofList [(0, ⟨{0}, ⟨[D_EQ]⟩⟩)]
      else ∅ }

/-- The closure loop stops on the pair, with each node depending on itself. -/
theorem indirectDepends_closure_pair :
    ∃ fuel₀ g', (∀ fuel, fuel₀ ≤ fuel → computeIndirectDependencies fuel cyclePair = .ok g') ∧
      0 ∈ g'.indirectDepends 0 := by
  have hentries : ∀ n ∈ cyclePair.allNodes, ∀ e ∈ (cyclePair.directDepends n).entries,
      e.1 ∈ cyclePair.allNodes ∧ e.2.rules.Nonempty := by decide
  obtain ⟨fuel₀, g', hrun, hspec⟩ := indirectDepends_closure cyclePair
    (by
      intro n hn k hk
      obtain ⟨v, hv⟩ := OrderedMap.mem_iff.mp hk
      exact (hentries n hn (k, v) (OrderedMap.mem_entries.mpr hv)).1)
    (fun n hn k v hv => (hentries n hn (k, v) (OrderedMap.mem_entries.mpr hv)).2)
    (fun n _ => rfl)
  refine ⟨fuel₀, g', hrun, ((hspec 0 (by decide)).1 0).mpr ?_⟩
  have h01 : 1 ∈ cyclePair.directDepends 0 := by decide
  have h10 : 0 ∈ cyclePair.directDepends 1 := by decide
  exact .head h01 (.single h10)

end StaticScheduler

end PbScheduler
