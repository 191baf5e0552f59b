import PetaBricks.CoschedulingProofs
import PetaBricks.DepthFirstProofs

/-!
# The order of a schedule — depth first over the merged graph

After the merge every edge leads to a container, and a cycle through different containers would
be a cycle of the graph before the merge, whose nodes are one component and so have one
container.  The depth-first search over the merged graph is therefore a walk of an acyclic graph,
and the rule of such walks gives the order.  What is left of `Schedule::initialize` is the check
of the intermediate nodes that were not generated.
-/

namespace PbScheduler

open PbOrderedMap PbSaturation PbDepthFirst Relation

/-! ## Remapped sets of nodes -/

namespace ChoiceDepGraphNodeSet

/-- Replacing members one after the other, where no replacement is replaced again. -/
theorem mem_foldl_replace {l : List (Node × Node)} (hnd : (l.map Prod.fst).Nodup)
    (hval : ∀ e ∈ l, e.2 ∉ l.map Prod.fst) {set : ChoiceDepGraphNodeSet} {x : Node} :
    x ∈ l.foldl (fun s i => if i.1 ∈ s then (s.erase i.1).insert i.2 () else s) set ↔
      x ∈ set ∧ x ∉ l.map Prod.fst ∨ ∃ e ∈ l, e.1 ∈ set ∧ e.2 = x := by
  induction l generalizing set with
  | nil => simp
  | cons e rest ih =>
      obtain ⟨k, v⟩ := e
      rw [List.map_cons, List.nodup_cons] at hnd
      obtain ⟨hk, hrest⟩ := hnd
      have hv : v ≠ k ∧ v ∉ rest.map Prod.fst := by
        have := hval (k, v) List.mem_cons_self
        rw [List.map_cons, List.mem_cons, not_or] at this
        exact this
      have hval' : ∀ e ∈ rest, e.2 ∉ rest.map Prod.fst := by
        intro e he hmem
        exact hval e (List.mem_cons_of_mem _ he) (List.mem_cons_of_mem _ hmem)
      have hstep : ∀ y, y ∈ (if k ∈ set then (set.erase k).insert v () else set) ↔
          y ∈ set ∧ y ≠ k ∨ k ∈ set ∧ y = v := by
        intro y
        by_cases hks : k ∈ set
        · rw [if_pos hks, OrderedMap.mem_insert, OrderedMap.mem_erase]
          tauto
        · rw [if_neg hks]
          constructor
          · intro hy
            exact Or.inl ⟨hy, fun h => hks (h ▸ hy)⟩
          · rintro (⟨hy, _⟩ | ⟨hy, _⟩)
            · exact hy
            · exact absurd hy hks
      have hother : ∀ e ∈ rest, (e.1 ∈ (if k ∈ set then (set.erase k).insert v () else set) ↔
          e.1 ∈ set) := by
        intro e he
        have hmem : e.1 ∈ rest.map Prod.fst := List.mem_map_of_mem he
        rw [hstep]
        constructor
        · rintro (⟨h, _⟩ | ⟨_, h⟩)
          · exact h
          · exact absurd (h ▸ hmem) hv.2
        · intro h
          exact Or.inl ⟨h, fun heq => hk (heq ▸ hmem)⟩
      rw [List.foldl_cons, ih hrest hval', hstep, List.map_cons, List.mem_cons]
      constructor
      · rintro (⟨⟨hx, hne⟩ | ⟨hks, rfl⟩, hnot⟩ | ⟨e, he, hes, rfl⟩)
        · exact Or.inl ⟨hx, fun h => h.elim hne hnot⟩
        · exact Or.inr ⟨(k, x), List.mem_cons_self, hks, rfl⟩
        · exact Or.inr ⟨e, List.mem_cons_of_mem _ he, (hother e he).mp hes, rfl⟩
      · rintro (⟨hx, hnot⟩ | ⟨e, he, hes, rfl⟩)
        · exact Or.inl ⟨Or.inl ⟨hx, fun h => hnot (Or.inl h)⟩, fun h => hnot (Or.inr h)⟩
        · rcases List.mem_cons.mp he with rfl | he
          · exact Or.inl ⟨Or.inr ⟨hes, rfl⟩, hv.2⟩
          · exact Or.inr ⟨e, he, (hother e he).mpr hes, rfl⟩

/-- **A REMAPPED SET** has what its members are mapped to. -/
theorem mem_applyRemapping {set : ChoiceDepGraphNodeSet} {map : ChoiceDepGraphNodeRemapping}
    (hmap : ∀ k v, map.find k = some v → map.find v = none) {x : Node} :
    x ∈ applyRemapping set map ↔ ∃ j ∈ set, (map.find j).getD j = x := by
  have hkey : ∀ y, y ∈ map.entries.map Prod.fst ↔ ∃ v, map.find y = some v := by
    intro y
    rw [← OrderedMap.mem_iff]
    exact OrderedMap.mem_keys
  rw [applyRemapping, mem_foldl_replace map.keys_nodup]
  · constructor
    · rintro (⟨hx, hnot⟩ | ⟨⟨k, v⟩, he, hk, rfl⟩)
      · refine ⟨x, hx, ?_⟩
        cases hfind : map.find x with
        | none => rfl
        | some v => exact absurd ((hkey x).mpr ⟨v, hfind⟩) hnot
      · exact ⟨k, hk, by rw [OrderedMap.mem_entries.mp he]; rfl⟩
    · rintro ⟨j, hj, hx⟩
      cases hfind : map.find j with
      | none =>
          rw [hfind] at hx
          obtain rfl : j = x := hx
          refine Or.inl ⟨hj, ?_⟩
          rw [hkey, hfind]
          rintro ⟨v, hv⟩
          cases hv
      | some v =>
          rw [hfind] at hx
          exact Or.inr ⟨(j, v), OrderedMap.mem_entries.mpr hfind, hj, hx⟩
  · rintro ⟨k, v⟩ he hmem
    obtain ⟨w, hw⟩ := (hkey v).mp hmem
    rw [hmap k v (OrderedMap.mem_entries.mp he)] at hw
    cases hw

end ChoiceDepGraphNodeSet

namespace StaticScheduler

/-! ## The search is a walk -/

/-- The state of the scheduler in the state of a walk. -/
def walked (g : StaticScheduler) (v : Visit Node) : SchedulingState :=
  ⟨v.generated, v.pending, v.order.map g.scheduleEntry⟩

/-- The nodes a search continues with. -/
def successors (g : StaticScheduler) (n : Node) : List Node := (g.directDepends n).keys

/-- A loop that follows another in all its steps that succeed. -/
theorem foldlM_of_foldlM {α β σ ε ε' : Type} {f : σ → α → Except ε σ}
    {f' : β → α → Except ε' β} (conc : σ → β) {l : List α}
    (h : ∀ a ∈ l, ∀ v v', f v a = .ok v' → f' (conc v) a = .ok (conc v')) {v v' : σ}
    (hl : l.foldlM f v = .ok v') : l.foldlM f' (conc v) = .ok (conc v') := by
  induction l generalizing v with
  | nil =>
      cases hl
      rfl
  | cons a rest ih =>
      rw [List.foldlM_cons] at hl ⊢
      cases ha : f v a with
      | error e =>
          rw [ha] at hl
          cases hl
      | ok u =>
          rw [ha] at hl
          rw [h a List.mem_cons_self v u ha]
          exact ih (fun b hb => h b (List.mem_cons_of_mem _ hb)) hl

/-- **THE SEARCH FOLLOWS THE WALK** when the walk meets no fault. -/
theorem depthFirst_of_visit (g : StaticScheduler) {fuel : Nat} {v v' : Visit Node} {n : Node}
    (h : visit g.successors fuel v n = .ok v') :
    g.depthFirstChoiceDepGraphNode fuel (g.walked v) n = .ok (g.walked v') := by
  induction fuel generalizing v v' n with
  | zero => cases h
  | succ fuel ih =>
      rw [visit] at h
      rw [depthFirstChoiceDepGraphNode]
      by_cases hg : n ∈ v.generated
      · rw [if_pos hg] at h
        rw [if_pos (show n ∈ (g.walked v).generated from hg)]
        cases h
        rfl
      · rw [if_neg hg] at h
        rw [if_neg (show n ∉ (g.walked v).generated from hg)]
        by_cases hp : n ∈ v.pending
        · rw [if_pos hp] at h
          cases h
        · rw [if_neg hp] at h
          rw [if_neg (show n ∉ (g.walked v).pending from hp)]
          cases hloop : (g.successors n).foldlM
              (fun s m => if m = n then .ok s else visit g.successors fuel s m)
              { v with pending := v.pending.insert n () } with
          | error e =>
              rw [hloop] at h
              cases h
          | ok u =>
              rw [hloop] at h
              cases h
              have hfollow : ∀ m ∈ g.successors n, ∀ s s' : Visit Node,
                  (if m = n then .ok s else visit g.successors fuel s m) = .ok s' →
                  (if m = n then .ok (g.walked s)
                    else g.depthFirstChoiceDepGraphNode fuel (g.walked s) m) =
                      .ok (g.walked s') := by
                intro m _ s s' hs
                by_cases hm : m = n
                · rw [if_pos hm] at hs ⊢
                  cases hs
                  rfl
                · rw [if_neg hm] at hs ⊢
                  exact ih hs
              have hrest : (g.successors n).foldlM
                  (fun state i => if i = n then .ok state
                    else g.depthFirstChoiceDepGraphNode fuel state i)
                  (g.walked { v with pending := v.pending.insert n () }) = .ok (g.walked u) :=
                foldlM_of_foldlM g.walked hfollow hloop
              have hstart : g.walked { v with pending := v.pending.insert n () } =
                  { g.walked v with pending := (g.walked v).pending.insert n () } := rfl
              rw [hstart, successors] at hrest
              simp only [hrest, bind, Except.bind]
              rw [walked, walked, List.map_append]
              rfl

/-! ## The merged graph has no cycles -/

section Merged

variable {g : StaticScheduler} {alloc : Nat → Node} {s : Coscheduling}
  {choice : RuleChoiceAssignment} {g' : StaticScheduler}

theorem reaches_of_mem_component (hg : Closed g) {a x : Node} (ha : a ∈ g.allNodes)
    (hx : x ∈ g.getStronglyConnectedComponent a) :
    ReflTransGen g.DependsOn a x ∧ ReflTransGen g.DependsOn x a := by
  rcases (mem_component hg.graph hg.sound hg.saturated ha).mp hx with rfl | ⟨h, hback⟩
  · exact ⟨ReflTransGen.refl, ReflTransGen.refl⟩
  · exact ⟨h.to_reflTransGen, hback.to_reflTransGen⟩

/-- An edge of a container is, up to containers, an edge of one of its members. -/
theorem edge_of_merged (hg : Closed g) (hinj : Function.Injective alloc)
    (hfresh : ∀ j, alloc j ∉ g.allNodes) (hs : g.coscheduleNodes alloc = .ok s)
    (hmerge : g.mergeCoscheduledNodes choice alloc = .ok g') {a k : Node}
    (ha : a ∈ g.allNodes) (hk : k ∈ g'.directDepends (s.container a)) :
    ∃ x ∈ g.getStronglyConnectedComponent a, ∃ j, g.DependsOn x j ∧ s.container j = k := by
  obtain ⟨hc, hdone⟩ := coscheduleNodes_spec hg hinj hfresh hs
  obtain ⟨j, hj, hjk⟩ :=
    (mem_directDepends_merged hg hinj hfresh hs hmerge (hc.container_mem ha)).mp hk
  rcases (hc.mem_directDepends_container hg ha (hdone a ha)).mp hj with
    ⟨x, hx, hjx⟩ | ⟨hnone, x, hx, hjx⟩
  · refine ⟨x, hx, j, ?_, hjk⟩
    have hne : (g.directDependsRemapped x).entries ≠ [] :=
      fun h => OrderedMap.entries_eq_nil.mp h j hjx
    show j ∈ g.directDepends x
    rw [directDepends, if_neg hne]
    exact hjx
  · refine ⟨x, hx, j, ?_, hjk⟩
    show j ∈ g.directDepends x
    rw [directDepends, if_pos (OrderedMap.entries_eq_nil.mpr (hnone x hx))]
    exact hjx

/-- A chain of edges from a container leads to the container of a node that a member reaches. -/
theorem reaches_of_merged (hg : Closed g) (hinj : Function.Injective alloc)
    (hfresh : ∀ j, alloc j ∉ g.allNodes) (hs : g.coscheduleNodes alloc = .ok s)
    (hmerge : g.mergeCoscheduledNodes choice alloc = .ok g') {a k : Node}
    (ha : a ∈ g.allNodes) (hk : TransGen (Points g'.successors) (s.container a) k) :
    ∃ b ∈ g.allNodes, s.container b = k ∧ TransGen g.DependsOn a b := by
  have hedge : ∀ a k, a ∈ g.allNodes → Points g'.successors (s.container a) k →
      ∃ b ∈ g.allNodes, s.container b = k ∧ TransGen g.DependsOn a b := by
    rintro a k ha ⟨hk, _⟩
    obtain ⟨x, hx, j, hj, hjk⟩ :=
      edge_of_merged hg hinj hfresh hs hmerge ha (OrderedMap.mem_keys.mp hk)
    have hxn := component_nodes hg ha hx
    exact ⟨j, hg.graph.target x hxn j hj, hjk,
      TransGen.tail' (reaches_of_mem_component hg ha hx).1 hj⟩
  induction hk with
  | single h => exact hedge a _ ha h
  | tail _ h ih =>
      obtain ⟨b, hb, rfl, hreach⟩ := ih
      obtain ⟨b', hb', hk', hreach'⟩ := hedge b _ hb h
      exact ⟨b', hb', hk', hreach.trans hreach'⟩

/-- **THE MERGED GRAPH IS ACYCLIC**: a cycle through another container would put the nodes of
    both in one component. -/
theorem merged_acyclic (hg : Closed g) (hinj : Function.Injective alloc)
    (hfresh : ∀ j, alloc j ∉ g.allNodes) (hs : g.coscheduleNodes alloc = .ok s)
    (hmerge : g.mergeCoscheduledNodes choice alloc = .ok g') {a : Node} (ha : a ∈ g.allNodes) :
    ¬ TransGen (Points g'.successors) (s.container a) (s.container a) := by
  intro hcycle
  obtain ⟨hc, hdone⟩ := coscheduleNodes_spec hg hinj hfresh hs
  obtain ⟨c, hfirst, hrest⟩ := TransGen.head'_iff.mp hcycle
  obtain ⟨j, hj, rfl, hreach⟩ :=
    reaches_of_merged hg hinj hfresh hs hmerge ha (TransGen.single hfirst)
  have hback : TransGen g.DependsOn j a := by
    rcases reflTransGen_iff_eq_or_transGen.mp hrest with heq | htrans
    · exact absurd heq.symm hfirst.2
    · obtain ⟨b, hb, hba, hjb⟩ := reaches_of_merged hg hinj hfresh hs hmerge hj htrans
      have hmem := (hc.container_eq_iff hg hfresh ha hb (hdone a ha)).mp hba.symm
      exact hjb.trans_left (reaches_of_mem_component hg ha hmem).2
  have hmem : j ∈ g.getStronglyConnectedComponent a :=
    (mem_component hg.graph hg.sound hg.saturated ha).mpr (Or.inr ⟨hreach, hback⟩)
  exact hfirst.2 ((hc.container_eq_iff hg hfresh ha hj (hdone a ha)).mpr hmem).symm

/-- The container of an input depends on nothing. -/
theorem merged_input (hg : Closed g) (hinj : Function.Injective alloc)
    (hfresh : ∀ j, alloc j ∉ g.allNodes) (hs : g.coscheduleNodes alloc = .ok s)
    (hmerge : g.mergeCoscheduledNodes choice alloc = .ok g') {i k : Node}
    (hi : i ∈ g.inputsOriginal) : k ∉ g'.directDepends (s.container i) := by
  intro hk
  obtain ⟨hin, hnone⟩ := hg.inputs i hi
  obtain ⟨x, hx, j, hj, _⟩ := edge_of_merged hg hinj hfresh hs hmerge hin hk
  rcases (mem_component hg.graph hg.sound hg.saturated hin).mp hx with rfl | ⟨hreach, _⟩
  · exact hnone j hj
  · obtain ⟨y, hy, _⟩ := TransGen.head'_iff.mp hreach
    exact hnone y hy

/-! ## The sets the search starts from -/

/-- The marks of the merged graph, and the sets the schedule is made from. -/
theorem merged_sets (hg : Closed g) (hinj : Function.Injective alloc)
    (hfresh : ∀ j, alloc j ∉ g.allNodes) (hs : g.coscheduleNodes alloc = .ok s)
    (hmerge : g.mergeCoscheduledNodes choice alloc = .ok g') :
    g'.isOutput = s.graph.isOutput ∧
      (∀ x, x ∈ g'.inputsRemapped ↔ ∃ i ∈ g.inputsOriginal, s.container i = x) ∧
      ∀ x, x ∈ g'.outputsRemapped ↔ ∃ o ∈ g.outputsOriginal, s.container o = x := by
  obtain ⟨hc, _⟩ := coscheduleNodes_spec hg hinj hfresh hs
  obtain ⟨R, I, hremap, _⟩ := remapNodes_spec hg hinj hfresh hc
  have hmap : ∀ k v, s.mapping.find k = some v → s.mapping.find v = none := by
    intro k v hk
    cases hv : s.mapping.find v with
    | none => rfl
    | some w =>
        have hmeta := hc.meta_not_mem hfresh (hc.mapped k v hk).2.1
        exact absurd (hc.done_nodes v (hc.mapped v w hv).1) hmeta
  rw [mergeCoscheduledNodes, hs] at hmerge
  cases hv : validateMetaNodes choice (remapNodes s) s.newMetaNodes with
  | error e =>
      simp only [hv, bind, Except.bind] at hmerge
      cases hmerge
  | ok g₁ =>
      simp only [hv, bind, Except.bind, Except.ok.injEq] at hmerge
      obtain ⟨I', K, rfl, _⟩ := validateMetaNodes_eq hv
      subst hmerge
      rw [hremap]
      refine ⟨rfl, ?_, ?_⟩
      · intro x
        rw [← hc.inputs]
        exact ChoiceDepGraphNodeSet.mem_applyRemapping hmap
      · intro x
        rw [← hc.outputs]
        exact ChoiceDepGraphNodeSet.mem_applyRemapping hmap

/-- The container of an output is marked as one. -/
theorem isOutput_container (hg : Closed g) (hc : Coscheduled g alloc s) {o : Node}
    (ho : o ∈ g.outputsOriginal) : s.graph.isOutput (s.container o) = true := by
  obtain ⟨hmem, hmark⟩ := hg.outputs o ho
  rw [Coscheduling.container]
  cases hfind : s.mapping.find o with
  | none => exact ((hc.old o hmem).output).trans hmark
  | some m =>
      obtain ⟨_, hm, hmember⟩ := hc.mapped o m hfind
      exact hc.marked m hm o hmember hmark

/-! ## The schedule -/

/-- The nodes of a schedule: each node an output depends on, other than the inputs, is there
    once and after every other node it directly depends on. -/
structure IsSchedule (g : StaticScheduler) (order : List Node) : Prop where
  nodup : order.Nodup
  mem_iff : ∀ x, x ∈ order ↔
    x ∉ g.inputsRemapped ∧ ∃ o ∈ g.outputsRemapped, ReflTransGen g.DependsOn o x
  after : ∀ l x r, order = l ++ x :: r →
    ∀ y, g.DependsOn x y → y ≠ x → y ∈ g.inputsRemapped ∨ y ∈ l

theorem reflTransGen_points_iff (g : StaticScheduler) {a b : Node} :
    ReflTransGen (Points g.successors) a b ↔ ReflTransGen g.DependsOn a b := by
  constructor
  · intro h
    induction h with
    | refl => exact ReflTransGen.refl
    | tail _ hedge ih => exact ih.tail (OrderedMap.mem_keys.mp hedge.1)
  · intro h
    induction h with
    | refl => exact ReflTransGen.refl
    | @tail b c _ hedge ih =>
        by_cases heq : c = b
        · exact heq ▸ ih
        · exact ih.tail ⟨OrderedMap.mem_keys.mpr hedge, heq⟩

/-- **THE SEARCH FROM THE OUTPUTS ENDS WITH A SCHEDULE**, without the assertion of a dependency
    cycle. -/
theorem scheduleOutputs_spec (hg : Closed g) (hinj : Function.Injective alloc)
    (hfresh : ∀ j, alloc j ∉ g.allNodes)
    (hmerge : g.mergeCoscheduledNodes choice alloc = .ok g') {fuel : Nat}
    (hfuel : g.allNodes.length < fuel) :
    ∃ order state, g'.scheduleOutputs fuel = .ok state ∧ IsSchedule g' order ∧
      state.schedule = order.map g'.scheduleEntry ∧
      ∀ x, x ∈ state.generated ↔ x ∈ g'.inputsRemapped ∨ x ∈ order := by
  obtain ⟨s, hs⟩ : ∃ s, g.coscheduleNodes alloc = .ok s := by
    cases hs : g.coscheduleNodes alloc with
    | ok s => exact ⟨s, rfl⟩
    | error e =>
        rw [mergeCoscheduledNodes, hs] at hmerge
        cases hmerge
  obtain ⟨hc, hdone⟩ := coscheduleNodes_spec hg hinj hfresh hs
  obtain ⟨hmarks, hinputs, houtputs⟩ := merged_sets hg hinj hfresh hs hmerge
  have hroots : ∀ r ∈ g'.outputsRemapped.keys, r ∈ g.allNodes.map s.container := by
    intro r hr
    obtain ⟨o, ho, rfl⟩ := (houtputs r).mp (OrderedMap.mem_keys.mp hr)
    exact List.mem_map_of_mem (hg.outputs o ho).1
  have hacyc : ∀ n ∈ g.allNodes.map s.container, ¬ TransGen (Points g'.successors) n n := by
    intro n hn
    obtain ⟨a, ha, rfl⟩ := List.mem_map.mp hn
    exact merged_acyclic hg hinj hfresh hs hmerge ha
  have hin : ∀ n ∈ g.allNodes.map s.container, ∀ m ∈ g'.successors n,
      m ∈ g.allNodes.map s.container := by
    intro n hn m hm
    obtain ⟨a, ha, rfl⟩ := List.mem_map.mp hn
    obtain ⟨x, hx, j, hj, rfl⟩ :=
      edge_of_merged hg hinj hfresh hs hmerge ha (OrderedMap.mem_keys.mp hm)
    exact List.mem_map_of_mem (hg.graph.target x (component_nodes hg ha hx) j hj)
  have hstart : ∀ x ∈ g'.inputsRemapped, ∀ y, ¬ Points g'.successors x y := by
    rintro x hx y ⟨hy, _⟩
    obtain ⟨i, hi, rfl⟩ := (hinputs x).mp hx
    exact merged_input hg hinj hfresh hs hmerge hi (OrderedMap.mem_keys.mp hy)
  obtain ⟨v, hwalk, hnodup, hmem, htop, hgenerated⟩ := walk_spec hacyc hin hroots hstart
    (show (g.allNodes.map s.container).length < fuel by rwa [List.length_map])
  have hfollow : ∀ i ∈ g'.outputsRemapped.keys, ∀ u u' : Visit Node,
      visit g'.successors fuel u i = .ok u' →
      (if g'.isOutput i then g'.depthFirstChoiceDepGraphNode fuel (g'.walked u) i
        else .error .notAnOutput) = .ok (g'.walked u') := by
    intro i hi u u' hu
    obtain ⟨o, ho, rfl⟩ := (houtputs i).mp (OrderedMap.mem_keys.mp hi)
    rw [if_pos (by rw [hmarks, isOutput_container hg hc ho])]
    exact depthFirst_of_visit g' hu
  have hrun : g'.scheduleOutputs fuel = .ok (g'.walked v) :=
    foldlM_of_foldlM g'.walked hfollow hwalk
  refine ⟨v.order, g'.walked v, hrun, ⟨hnodup, ?_, ?_⟩, rfl, hgenerated⟩
  · intro x
    rw [hmem x]
    apply and_congr_right
    intro _
    constructor
    · rintro ⟨o, ho, hreach⟩
      exact ⟨o, OrderedMap.mem_keys.mp ho, (reflTransGen_points_iff g').mp hreach⟩
    · rintro ⟨o, ho, hreach⟩
      exact ⟨o, OrderedMap.mem_keys.mpr ho, (reflTransGen_points_iff g').mpr hreach⟩
  · intro l x r horder y hy hne
    exact htop l x r horder y ⟨OrderedMap.mem_keys.mpr hy, hne⟩

end Merged

/-! ## The nodes that were not generated -/

theorem forM_ok {ε α : Type} {f : α → Except ε Unit} {l : List α} (h : ∀ i ∈ l, f i = .ok ()) :
    l.forM f = .ok () := by
  induction l with
  | nil => rfl
  | cons i rest ih =>
      show (f i >>= fun _ => rest.forM f) = .ok ()
      rw [h i List.mem_cons_self]
      exact ih (fun j hj => h j (List.mem_cons_of_mem _ hj))

/-- A loop that can only fail in one way, and does so somewhere. -/
theorem forM_error {ε α : Type} {f : α → Except ε Unit} {e : ε} {l : List α}
    (h : ∀ i ∈ l, f i = .ok () ∨ f i = .error e) (hbad : ∃ i ∈ l, f i = .error e) :
    l.forM f = .error e := by
  induction l with
  | nil =>
      obtain ⟨i, hi, _⟩ := hbad
      exact absurd hi List.not_mem_nil
  | cons i rest ih =>
      show (f i >>= fun _ => rest.forM f) = .error e
      rcases h i List.mem_cons_self with hi | hi
      · rw [hi]
        refine ih (fun j hj => h j (List.mem_cons_of_mem _ hj)) ?_
        obtain ⟨j, hj, hej⟩ := hbad
        rcases List.mem_cons.mp hj with rfl | hj
        · rw [hi] at hej
          cases hej
        · exact ⟨j, hj, hej⟩
      · rw [hi]
        rfl

/-- An intermediate node outside the schedule. -/
def Unused (g : StaticScheduler) (order : List Node) (i : Node) : Prop :=
  i ∈ g.intermediatesRemapped ∧ i ∉ g.inputsRemapped ∧ i ∉ order

/-- A node that has choices, and the first of them chosen. -/
def HasFirstChoice (g : StaticScheduler) (choice : RuleChoiceAssignment) (i : Node) : Prop :=
  ∃ first, (g.choices i).head? = some first ∧ choice i = some first

/-- What the check of a node outside the schedule finds. -/
theorem checkIntermediate_cases {g : StaticScheduler} {choice : RuleChoiceAssignment}
    {state : SchedulingState} {i : Node} (hi : i ∉ state.generated) (hne : g.choices i ≠ []) :
    g.checkIntermediate choice state i = .ok () ∧ g.HasFirstChoice choice i ∨
      g.checkIntermediate choice state i = .error .cantSchedule ∧
        ¬ g.HasFirstChoice choice i := by
  obtain ⟨first, rest, hchoices⟩ := List.exists_cons_of_ne_nil hne
  rw [checkIntermediate, if_neg hi, HasFirstChoice, hchoices, List.head?_cons]
  by_cases hfirst : choice i = some first
  · refine Or.inl ⟨?_, first, rfl, hfirst⟩
    simp only [hfirst, ne_eq, not_true_eq_false, if_false]
  · refine Or.inr ⟨?_, ?_⟩
    · simp only [ne_eq, hfirst, not_false_eq_true, if_true]
    · rintro ⟨first', hhead, hchoice⟩
      exact hfirst (hchoice.trans hhead.symm)

/-- **EVERY CHOICE OF RULES THAT CAN BE MERGED IS SCHEDULED IN TOPOLOGICAL ORDER**: the search
    never stops at a cycle.  Its schedule is returned if the unused intermediate nodes have their
    first choices, and given up if one of them, all having choices, has another. -/
theorem initializeSchedule_topological {g : StaticScheduler} (hg : WellFormed g)
    (choice : RuleChoiceAssignment) :
    ∃ fuel₀ g₂, (∀ fuel, fuel₀ ≤ fuel → g.chooseRules choice fuel = .ok g₂) ∧
      ∀ alloc : Nat → Node, Function.Injective alloc → (∀ j, alloc j ∉ g.allNodes) →
        ∀ g₃, g₂.mergeCoscheduledNodes choice alloc = .ok g₃ →
          ∀ fuel, g.allNodes.length < fuel →
            ∃ order state, g₃.scheduleOutputs fuel = .ok state ∧ IsSchedule g₃ order ∧
              state.schedule = order.map g₃.scheduleEntry ∧
              ((∀ i, g₃.Unused order i → g₃.HasFirstChoice choice i) →
                g₃.initializeSchedule choice fuel = .ok (order.map g₃.scheduleEntry)) ∧
              ((∀ i, g₃.Unused order i → g₃.choices i ≠ []) →
                (∃ i, g₃.Unused order i ∧ ¬ g₃.HasFirstChoice choice i) →
                g₃.initializeSchedule choice fuel = .error .cantSchedule) := by
  obtain ⟨fuel₀, R, I, hrun, _, hclosed⟩ := chooseRules_spec hg choice
  refine ⟨fuel₀, g.withDepends R I, hrun, ?_⟩
  intro alloc hinj hfresh g₃ hmerge fuel hfuel
  obtain ⟨order, state, hstate, horder, hschedule, hgenerated⟩ :=
    scheduleOutputs_spec hclosed hinj hfresh hmerge hfuel
  have hunused : ∀ i ∈ g₃.intermediatesRemapped.keys, i ∉ state.generated →
      g₃.Unused order i := by
    intro i hi hnot
    rw [hgenerated, not_or] at hnot
    exact ⟨OrderedMap.mem_keys.mp hi, hnot⟩
  refine ⟨order, state, hstate, horder, hschedule, ?_, ?_⟩
  · intro hfirst
    have hall : ∀ i ∈ g₃.intermediatesRemapped.keys,
        g₃.checkIntermediate choice state i = .ok () := by
      intro i hi
      by_cases hgen : i ∈ state.generated
      · rw [checkIntermediate, if_pos hgen]
      · have hi' := hfirst i (hunused i hi hgen)
        have hne : g₃.choices i ≠ [] := by
          obtain ⟨first, hhead, _⟩ := hi'
          exact List.ne_nil_of_mem (List.mem_of_head? hhead)
        rcases checkIntermediate_cases hgen hne with ⟨hok, _⟩ | ⟨_, hbad⟩
        · exact hok
        · exact absurd hi' hbad
    rw [initializeSchedule, hstate]
    simp only [bind, Except.bind, forM_ok hall, hschedule]
  · rintro hchoices ⟨i, hi, hbad⟩
    have hone : ∀ j ∈ g₃.intermediatesRemapped.keys,
        g₃.checkIntermediate choice state j = .ok () ∨
          g₃.checkIntermediate choice state j = .error .cantSchedule := by
      intro j hj
      by_cases hgen : j ∈ state.generated
      · exact Or.inl (by rw [checkIntermediate, if_pos hgen])
      · exact (checkIntermediate_cases hgen (hchoices j (hunused j hj hgen))).imp And.left
          And.left
    have hthrows : ∃ j ∈ g₃.intermediatesRemapped.keys,
        g₃.checkIntermediate choice state j = .error .cantSchedule := by
      refine ⟨i, OrderedMap.mem_keys.mpr hi.1, ?_⟩
      have hgen : i ∉ state.generated := by
        rw [hgenerated, not_or]
        exact hi.2
      rcases @checkIntermediate_cases g₃ choice state i hgen (hchoices i hi) with
        ⟨_, hok⟩ | ⟨hthrow, _⟩
      · exact absurd hok hbad
      · exact hthrow
    rw [initializeSchedule, hstate]
    simp only [bind, Except.bind, forM_error hone hthrows]

/-! ## A temporary that is not used -/

/-- Node 1 is an output computed from the input 0 by rule 0; node 2 is a temporary that rule 1
    or rule 2 can compute from the input, and that nothing reads. -/
def unusedTemporary : StaticScheduler :=
  { (default : StaticScheduler) with
    allNodes := [0, 1, 2]
    ruleKind := fun _ => .user 1
    isInput := fun n => n = 0
    isOutput := fun n => n = 1
    choices := fun n => if n = 1 then [0] else if n = 2 then [1, 2] else []
    directDependsOriginal := fun n =>
      if n = 1 then .ofList [(0, ⟨{0}, ⟨[D_EQ]⟩⟩)]
      else if n = 2 then .ofList [(0, ⟨{1, 2}, ⟨[D_EQ]⟩⟩)] else ∅
    inputsOriginal := .ofList [(0, ())]
    intermediatesOriginal := .ofList [(2, ())]
    outputsOriginal := .ofList [(1, ())] }

theorem wellFormed_unusedTemporary : WellFormed unusedTemporary := by
  have hedge : ∀ n k v, (unusedTemporary.directDependsOriginal n).find k = some v →
      (n = 1 ∨ n = 2) ∧ k = 0 ∧ v.rules.Nonempty := by
    intro n k v hv
    change OrderedMap.find (if n = 1 then _ else if n = 2 then _ else ∅) k = some v at hv
    have hmem := OrderedMap.mem_entries.mpr hv
    split at hmem
    · obtain ⟨rfl, rfl⟩ := Prod.mk.inj (List.mem_singleton.mp hmem)
      exact ⟨Or.inl ‹_›, rfl, by decide⟩
    · split at hmem
      · obtain ⟨rfl, rfl⟩ := Prod.mk.inj (List.mem_singleton.mp hmem)
        exact ⟨Or.inr ‹_›, rfl, by decide⟩
      · exact absurd hmem List.not_mem_nil
  have hmem : ∀ n k, k ∈ unusedTemporary.directDependsOriginal n →
      (n = 1 ∨ n = 2) ∧ k = 0 := by
    intro n k hk
    obtain ⟨v, hv⟩ := OrderedMap.mem_iff.mp hk
    obtain ⟨hn, hk, _⟩ := hedge n k v hv
    exact ⟨hn, hk⟩
  refine ⟨by decide, ?_, ?_, fun n k v hv => (hedge n k v hv).2.2, ?_, ?_, ?_⟩
  · intro n k hk
    rcases (hmem n k hk).1 with rfl | rfl <;> decide
  · intro n k hk
    rw [(hmem n k hk).2]
    decide
  · intro n hn
    obtain rfl : n = 0 := List.mem_singleton.mp (OrderedMap.mem_keys.mpr hn)
    refine ⟨by decide, fun k hk => ?_⟩
    rcases (hmem 0 k hk).1 with h | h <;> cases h
  · intro n hn
    obtain rfl : n = 2 := List.mem_singleton.mp (OrderedMap.mem_keys.mpr hn)
    decide
  · intro n hn
    obtain rfl : n = 1 := List.mem_singleton.mp (OrderedMap.mem_keys.mpr hn)
    decide

/-- Rule 0 for the output and a rule for the temporary. -/
def chooseFor (temporary : Rule) : RuleChoiceAssignment :=
  fun n => if n = 1 then some 0 else if n = 2 then some temporary else none

/-- The nodes of the schedule, and whether it is given up. -/
def scheduleRun (temporary : Rule) : Option (Except Stop (List Node)) := do
  let g₂ ← (unusedTemporary.chooseRules (chooseFor temporary) 10).toOption
  let g₃ ← (g₂.mergeCoscheduledNodes (chooseFor temporary) (· + 3)).toOption
  some ((g₃.initializeSchedule (chooseFor temporary) 10).map (List.map ScheduleEntry.node))

/-- With the first rule, the schedule is the output alone. -/
theorem initializeSchedule_topological_unusedTemporary :
    ∃ g₂ g₃ order, unusedTemporary.chooseRules (chooseFor 1) 10 = .ok g₂ ∧
      g₂.mergeCoscheduledNodes (chooseFor 1) (· + 3) = .ok g₃ ∧
      g₃.initializeSchedule (chooseFor 1) 10 = .ok (order.map g₃.scheduleEntry) ∧
      IsSchedule g₃ order := by
  have hrun : scheduleRun 1 = some (.ok [1]) := by decide +kernel
  rw [scheduleRun] at hrun
  obtain ⟨g₂, h₂, hrest⟩ := Option.bind_eq_some_iff.mp hrun
  obtain ⟨g₃, h₃, hnodes⟩ := Option.bind_eq_some_iff.mp hrest
  have hchoose := toOption_eq_some h₂
  have hmerge := toOption_eq_some h₃
  obtain ⟨fuel₀, g₂', hall, hschedule⟩ :=
    initializeSchedule_topological wellFormed_unusedTemporary (chooseFor 1)
  have hsame : g₂' = g₂ := by
    have hmore := computeIndirectDependencies_mono hchoose (Nat.le_max_right fuel₀ 10)
    have hboth := (hall _ (Nat.le_max_left fuel₀ 10)).symm.trans hmore
    exact Except.ok.inj hboth
  subst hsame
  have hfresh : ∀ j, j + 3 ∉ unusedTemporary.allNodes := by
    intro j hj
    have hlt : ∀ n ∈ unusedTemporary.allNodes, n < 3 := by decide
    exact absurd (hlt _ hj) (Nat.not_lt_of_le (Nat.le_add_left 3 j))
  obtain ⟨order, state, hstate, horder, hentries, _⟩ :=
    hschedule (· + 3) (fun a b h => Nat.add_right_cancel h) hfresh g₃ hmerge 10 (by decide)
  refine ⟨g₂', g₃, order, hchoose, hmerge, ?_, horder⟩
  rw [← hentries]
  cases hresult : g₃.initializeSchedule (chooseFor 1) 10 with
  | error e =>
      rw [hresult] at hnodes
      cases hnodes
  | ok schedule =>
      rw [initializeSchedule, hstate] at hresult
      cases hcheck : g₃.intermediatesRemapped.keys.forM
          (g₃.checkIntermediate (chooseFor 1) state) with
      | error e =>
          simp only [bind, Except.bind, hcheck] at hresult
          cases hresult
      | ok u =>
          simp only [bind, Except.bind, hcheck] at hresult
          exact hresult.symm

/-- **A SCHEDULE IS GIVEN UP**: the second rule is chosen for a temporary that is not used. -/
theorem unusedTemporary_given_up :
    ∃ g₂ g₃, unusedTemporary.chooseRules (chooseFor 2) 10 = .ok g₂ ∧
      g₂.mergeCoscheduledNodes (chooseFor 2) (· + 3) = .ok g₃ ∧
      g₃.initializeSchedule (chooseFor 2) 10 = .error .cantSchedule := by
  have hrun : scheduleRun 2 = some (.error .cantSchedule) := by decide +kernel
  rw [scheduleRun] at hrun
  obtain ⟨g₂, h₂, hrun⟩ := Option.bind_eq_some_iff.mp hrun
  obtain ⟨g₃, h₃, hrun⟩ := Option.bind_eq_some_iff.mp hrun
  refine ⟨g₂, g₃, toOption_eq_some h₂, toOption_eq_some h₃, ?_⟩
  cases hresult : g₃.initializeSchedule (chooseFor 2) 10 with
  | ok schedule =>
      rw [hresult] at hrun
      cases hrun
  | error e =>
      rw [hresult] at hrun
      cases hrun
      rfl

end StaticScheduler

end PbScheduler
