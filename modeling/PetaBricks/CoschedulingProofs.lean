import PetaBricks.IndirectDependsProofs

/-!
# Coscheduling — components become meta nodes, edges go to what contains their ends

`mergeCoscheduledNodes` processes the nodes one strongly connected component at a time: a
component of more than one node gets a meta node, which merges the dependencies of its
members, and every edge is then redirected to what contains its end.

The invariant of the first loop (`Coscheduled`) says what the loop has made so far: the nodes
themselves are as they were, each meta node has a component for its members and nobody else
is mapped to it.  It carries over because components partition the nodes, which is where the
closure of the indirect dependencies is used.  The headline is `mem_directDepends_merged`:
the dependencies of a node after the merge are the containers of its dependencies before.
-/

namespace PbScheduler

open PbOrderedMap PbSaturation Relation

/-! ## Merging and redirecting maps -/

namespace ScheduleDependencies

theorem mem_foldl_update {f : Node × DependencyInformation → Option DependencyInformation →
      DependencyInformation} {l : List (Node × DependencyInformation)}
    {m : ScheduleDependencies} {k : Node} :
    k ∈ l.foldl (fun m i => m.update i.1 (f i)) m ↔ k ∈ m ∨ k ∈ l.map Prod.fst := by
  induction l generalizing m with
  | nil => simp
  | cons e rest ih =>
      rw [List.foldl_cons, ih, OrderedMap.mem_update, List.map_cons, List.mem_cons]
      tauto

theorem mem_merge {a b : ScheduleDependencies} {k : Node} :
    k ∈ merge a b ↔ k ∈ a ∨ k ∈ b := by
  rw [merge, mem_foldl_update]
  exact or_congr_right OrderedMap.mem_keys

/-- The slots of a merge of the maps of a list of nodes. -/
theorem mem_foldl_merge {D : Node → ScheduleDependencies} {l : List Node}
    {m : ScheduleDependencies} {k : Node} :
    k ∈ l.foldl (fun m i => merge m (D i)) m ↔ k ∈ m ∨ ∃ i ∈ l, k ∈ D i := by
  induction l generalizing m with
  | nil => simp
  | cons i rest ih =>
      rw [List.foldl_cons, ih, mem_merge]
      constructor
      · rintro ((h | h) | ⟨j, hj, h⟩)
        · exact Or.inl h
        · exact Or.inr ⟨i, List.mem_cons_self, h⟩
        · exact Or.inr ⟨j, List.mem_cons_of_mem _ hj, h⟩
      · rintro (h | ⟨j, hj, h⟩)
        · exact Or.inl (Or.inl h)
        · rcases List.mem_cons.mp hj with rfl | hj
          · exact Or.inl (Or.inr h)
          · exact Or.inr ⟨j, hj, h⟩

/-- A merge joins the slots of both maps. -/
theorem find_merge (a b : ScheduleDependencies) (k : Node) :
    (merge a b).find k =
      (b.find k).elim (a.find k) (fun v => some ((a.find k).getD ⊥ ⊔ v)) := by
  rw [merge]
  exact OrderedMap.find_foldl_update
    (g := fun (o : Option DependencyInformation) v => ((o.getD default).merge v).1)
    b.keys_nodup

theorem below_merge_left (a b : ScheduleDependencies) : Below a (merge a b) := by
  intro k v hv
  rw [find_merge, hv]
  cases b.find k with
  | none => exact ⟨v, rfl, le_refl v⟩
  | some w => exact ⟨v ⊔ w, rfl, le_sup_left⟩

theorem below_merge_right (a b : ScheduleDependencies) : Below b (merge a b) := by
  intro k v hv
  rw [find_merge, hv]
  exact ⟨(a.find k).getD ⊥ ⊔ v, rfl, le_sup_right⟩

/-- A merge of the maps of a list of nodes is above each of them. -/
theorem below_foldl_merge {D : Node → ScheduleDependencies} {l : List Node}
    {m : ScheduleDependencies} :
    Below m (l.foldl (fun m i => merge m (D i)) m) ∧
      ∀ i ∈ l, Below (D i) (l.foldl (fun m i => merge m (D i)) m) := by
  induction l generalizing m with
  | nil => exact ⟨Below.refl m, fun i hi => absurd hi List.not_mem_nil⟩
  | cons i rest ih =>
      obtain ⟨hstart, hrest⟩ := @ih (merge m (D i))
      rw [List.foldl_cons]
      refine ⟨(below_merge_left m (D i)).trans hstart, ?_⟩
      intro j hj
      rcases List.mem_cons.mp hj with rfl | hj
      · exact (below_merge_right m (D j)).trans hstart
      · exact hrest j hj

/-- The slots of a merge of the maps of the members of a set. -/
theorem mem_merge_members {D D' : Node → ScheduleDependencies} {set : ChoiceDepGraphNodeSet}
    (hsame : ∀ i ∈ set, D' i = D i) {k : Node} :
    k ∈ set.keys.foldl (fun m i => merge m (D' i)) ∅ ↔ ∃ i ∈ set, k ∈ D i := by
  rw [mem_foldl_merge]
  constructor
  · rintro (h | ⟨i, hi, h⟩)
    · exact absurd h (OrderedMap.not_mem_empty k)
    · have hi' := OrderedMap.mem_keys.mp hi
      exact ⟨i, hi', hsame i hi' ▸ h⟩
  · rintro ⟨i, hi, h⟩
    exact Or.inr ⟨i, OrderedMap.mem_keys.mpr hi, (hsame i hi).symm ▸ h⟩

theorem mem_foldl_insert_fst {f : Node → Node} {l : List (Node × DependencyInformation)}
    {m : ScheduleDependencies} {k : Node} :
    k ∈ l.foldl (fun m i => m.insert (f i.1) i.2) m ↔ k ∈ m ∨ ∃ i ∈ l, f i.1 = k := by
  induction l generalizing m with
  | nil => simp
  | cons e rest ih =>
      rw [List.foldl_cons, ih, OrderedMap.mem_insert]
      constructor
      · rintro ((h | h) | ⟨j, hj, h⟩)
        · exact Or.inr ⟨e, List.mem_cons_self, h.symm⟩
        · exact Or.inl h
        · exact Or.inr ⟨j, List.mem_cons_of_mem _ hj, h⟩
      · rintro (h | ⟨j, hj, h⟩)
        · exact Or.inl (Or.inr h)
        · rcases List.mem_cons.mp hj with rfl | hj
          · exact Or.inl (Or.inl h.symm)
          · exact Or.inr ⟨j, hj, h⟩

/-- Redirecting a map redirects its slots. -/
theorem mem_applyRemapping {D : ScheduleDependencies} {map : ChoiceDepGraphNodeRemapping}
    {k : Node} :
    k ∈ applyRemapping D map ↔ ∃ j ∈ D, (map.find j).getD j = k := by
  rw [applyRemapping]
  by_cases hempty : map.entries = []
  · rw [if_pos hempty]
    have hfind : ∀ j, map.find j = none := by
      intro j
      rw [OrderedMap.find, hempty]
      rfl
    constructor
    · intro hk
      exact ⟨k, hk, by rw [hfind]; rfl⟩
    · rintro ⟨j, hj, rfl⟩
      rw [hfind]
      exact hj
  · rw [if_neg hempty]
    refine (mem_foldl_insert_fst (f := fun n => (map.find n).getD n)).trans ?_
    constructor
    · rintro (h | ⟨i, hi, h⟩)
      · exact absurd h (OrderedMap.not_mem_empty k)
      · exact ⟨i.1, OrderedMap.mem_keys.mp (List.mem_map_of_mem hi), h⟩
    · rintro ⟨j, hj, h⟩
      obtain ⟨i, hi, rfl⟩ := List.mem_map.mp (OrderedMap.mem_keys.mpr hj)
      exact Or.inr ⟨i, hi, h⟩

end ScheduleDependencies

theorem toOption_eq_some {α : Type} {x : Except Stop α} {a : α} (h : x.toOption = some a) :
    x = .ok a := by
  cases x with
  | error e => cases h
  | ok b =>
      cases h
      rfl

/-- A loop that may stop keeps what each of its steps keeps; the invariant may speak of what
    is left to do. -/
theorem foldlM_rest {α σ : Type} {P : List α → σ → Prop} {f : σ → α → Except Stop σ}
    (hstep : ∀ a rest s s', P (a :: rest) s → f s a = .ok s' → P rest s') (l : List α) :
    ∀ s s', P l s → l.foldlM f s = .ok s' → P [] s' := by
  induction l with
  | nil =>
      intro s s' hs h
      cases h
      exact hs
  | cons a rest ih =>
      intro s s' hs h
      rw [List.foldlM_cons] at h
      cases hf : f s a with
      | error e =>
          rw [hf] at h
          cases h
      | ok s₁ =>
          rw [hf] at h
          exact ih s₁ s' (hstep a rest s s₁ hs hf) h

namespace StaticScheduler

/-! ## Components partition the nodes -/

section Components

variable {g : StaticScheduler} (hg : Closed g) {n x y : Node}

include hg

theorem component_nodes (hn : n ∈ g.allNodes) (hx : x ∈ g.getStronglyConnectedComponent n) :
    x ∈ g.allNodes := by
  rcases (mem_component hg.graph hg.sound hg.saturated hn).mp hx with rfl | ⟨hreach, _⟩
  · exact hn
  · exact hg.graph.mem_of_reflTransGen hn hreach.to_reflTransGen

theorem component_self (hn : n ∈ g.allNodes) : n ∈ g.getStronglyConnectedComponent n :=
  (mem_component hg.graph hg.sound hg.saturated hn).mpr (Or.inl rfl)

theorem component_symm (hn : n ∈ g.allNodes) (hx : x ∈ g.getStronglyConnectedComponent n) :
    n ∈ g.getStronglyConnectedComponent x := by
  have hxn := component_nodes hg hn hx
  rw [mem_component hg.graph hg.sound hg.saturated hxn]
  rcases (mem_component hg.graph hg.sound hg.saturated hn).mp hx with rfl | ⟨hreach, hback⟩
  · exact Or.inl rfl
  · exact Or.inr ⟨hback, hreach⟩

theorem component_trans (hn : n ∈ g.allNodes) (hx : x ∈ g.getStronglyConnectedComponent n)
    (hy : y ∈ g.getStronglyConnectedComponent x) : y ∈ g.getStronglyConnectedComponent n := by
  have hxn := component_nodes hg hn hx
  rw [mem_component hg.graph hg.sound hg.saturated hn]
  rcases (mem_component hg.graph hg.sound hg.saturated hn).mp hx with rfl | ⟨h1, h2⟩
  · exact (mem_component hg.graph hg.sound hg.saturated hn).mp hy
  · rcases (mem_component hg.graph hg.sound hg.saturated hxn).mp hy with rfl | ⟨h3, h4⟩
    · exact Or.inr ⟨h1, h2⟩
    · exact Or.inr ⟨h1.trans h3, h4.trans h2⟩

end Components

/-! ## The first loop -/

/-- What contains a node after the first loop: its meta node, if it has one. -/
def Coscheduling.container (s : Coscheduling) (n : Node) : Node := (s.mapping.find n).getD n

/-- The maps and marks of a node are the same in two schedulers. -/
structure SameNode (g g' : StaticScheduler) (n : Node) : Prop where
  original : g'.directDependsOriginal n = g.directDependsOriginal n
  remapped : g'.directDependsRemapped n = g.directDependsRemapped n
  indirect : g'.indirectDepends n = g.indirectDepends n
  input : g'.isInput n = g.isInput n
  output : g'.isOutput n = g.isOutput n
  choices : g'.choices n = g.choices n

theorem SameNode.direct {g g' : StaticScheduler} {n : Node} (h : SameNode g g' n) :
    g'.directDepends n = g.directDepends n := by
  rw [directDepends, directDepends, h.original, h.remapped]

/-- Making a meta node changes no other node. -/
theorem sameNode_newMetaNode (g : StaticScheduler) (kind : NodeKind) {addr n : Node}
    (hne : n ≠ addr) : SameNode g (g.newMetaNode addr kind) n := by
  constructor <;> exact Function.update_of_ne hne _ _

theorem SameNode.trans {g g' g'' : StaticScheduler} {n : Node} (h : SameNode g g' n)
    (h' : SameNode g' g'' n) : SameNode g g'' n where
  original := h'.original.trans h.original
  remapped := h'.remapped.trans h.remapped
  indirect := h'.indirect.trans h.indirect
  input := h'.input.trans h.input
  output := h'.output.trans h.output
  choices := h'.choices.trans h.choices

/-- What the first loop has made: the nodes are as they were, every meta node has a component
    for its members, who are those mapped to it, and what is done is a union of components. -/
structure Coscheduled (g : StaticScheduler) (alloc : Nat → Node) (s : Coscheduling) :
    Prop where
  nodes : s.graph.allNodes = g.allNodes
  inputs : s.graph.inputsOriginal = g.inputsOriginal
  intermediates : s.graph.intermediatesOriginal = g.intermediatesOriginal
  outputs : s.graph.outputsOriginal = g.outputsOriginal
  old : ∀ n ∈ g.allNodes, SameNode g s.graph n
  fresh : s.newMetaNodes = (List.range s.newMetaNodes.length).map alloc
  done_nodes : ∀ n ∈ s.done, n ∈ g.allNodes
  done_component : ∀ n ∈ s.done, ∀ x ∈ g.getStronglyConnectedComponent n, x ∈ s.done
  mapped : ∀ n m, s.mapping.find n = some m →
    n ∈ s.done ∧ m ∈ s.newMetaNodes ∧ n ∈ (s.graph.kind m).originalNodes
  member : ∀ m ∈ s.newMetaNodes, ∀ n ∈ (s.graph.kind m).originalNodes,
    s.mapping.find n = some m
  component : ∀ m ∈ s.newMetaNodes, ∃ i ∈ g.allNodes,
    ∀ x, x ∈ (s.graph.kind m).originalNodes ↔ x ∈ g.getStronglyConnectedComponent i
  original : ∀ m ∈ s.newMetaNodes, ∀ k, k ∈ s.graph.directDependsOriginal m ↔
    ∃ i ∈ (s.graph.kind m).originalNodes, k ∈ g.directDependsOriginal i
  remapped : ∀ m ∈ s.newMetaNodes, ∀ k, k ∈ s.graph.directDependsRemapped m ↔
    ∃ i ∈ (s.graph.kind m).originalNodes, k ∈ g.directDependsRemapped i
  single : ∀ n ∈ s.done, s.mapping.find n = none →
    ∀ x ∈ g.getStronglyConnectedComponent n, x = n
  marked : ∀ m ∈ s.newMetaNodes, ∀ n ∈ (s.graph.kind m).originalNodes,
    g.isOutput n = true → s.graph.isOutput m = true
  indirect : ∀ m ∈ s.newMetaNodes, ∀ n ∈ (s.graph.kind m).originalNodes,
    Below (g.indirectDepends n) (s.graph.indirectDepends m)
  indirect_mem : ∀ m ∈ s.newMetaNodes, ∀ k ∈ s.graph.indirectDepends m,
    ∃ i ∈ (s.graph.kind m).originalNodes, k ∈ g.indirectDepends i

theorem coscheduled_init (g : StaticScheduler) (alloc : Nat → Node) :
    Coscheduled g alloc ⟨g, ∅, ∅, []⟩ where
  nodes := rfl
  inputs := rfl
  intermediates := rfl
  outputs := rfl
  old := fun n _ => ⟨rfl, rfl, rfl, rfl, rfl, rfl⟩
  fresh := rfl
  done_nodes := fun n hn => absurd hn (OrderedMap.not_mem_empty n)
  done_component := fun n hn => absurd hn (OrderedMap.not_mem_empty n)
  mapped := fun n m h => by cases h
  member := fun m hm => absurd hm List.not_mem_nil
  component := fun m hm => absurd hm List.not_mem_nil
  original := fun m hm => absurd hm List.not_mem_nil
  remapped := fun m hm => absurd hm List.not_mem_nil
  single := fun n hn => absurd hn (OrderedMap.not_mem_empty n)
  marked := fun m hm => absurd hm List.not_mem_nil
  indirect := fun m hm => absurd hm List.not_mem_nil
  indirect_mem := fun m hm => absurd hm List.not_mem_nil

theorem mem_insertAll {a b : ChoiceDepGraphNodeSet} {n : Node} :
    n ∈ ChoiceDepGraphNodeSet.insertAll a b ↔ n ∈ b ∨ n ∈ a := by
  rw [ChoiceDepGraphNodeSet.insertAll, OrderedMap.mem_foldl_insert, OrderedMap.mem_keys]

/-- Mapping a list of nodes to one. -/
theorem find_setEachTo {l : List Node} {addr : Node} {m : ChoiceDepGraphNodeRemapping}
    {n : Node} :
    (l.foldl (fun m e => m.insert e addr) m).find n =
      if n ∈ l then some addr else m.find n := by
  induction l generalizing m with
  | nil => rw [if_neg List.not_mem_nil]; rfl
  | cons e rest ih =>
      rw [List.foldl_cons, ih, OrderedMap.find_insert]
      by_cases hr : n ∈ rest
      · rw [if_pos hr, if_pos (List.mem_cons_of_mem _ hr)]
      · rw [if_neg hr]
        by_cases he : n = e
        · rw [if_pos he, if_pos (he ▸ List.mem_cons_self)]
        · rw [if_neg he, if_neg fun h => (List.mem_cons.mp h).elim he hr]

section FirstLoop

variable {g : StaticScheduler} {alloc : Nat → Node} {s : Coscheduling} {i : Node}

/-- A component that is not done has no member that is done. -/
theorem Coscheduled.component_not_done (hg : Closed g) (hs : Coscheduled g alloc s)
    (hi : i ∈ g.allNodes) (hdone : i ∉ s.done) {x : Node}
    (hx : x ∈ g.getStronglyConnectedComponent i) : x ∉ s.done :=
  fun hxd => hdone (hs.done_component x hxd i (component_symm hg hi hx))

theorem Coscheduled.alloc_not_mem (hinj : Function.Injective alloc)
    (hs : Coscheduled g alloc s) : alloc s.newMetaNodes.length ∉ s.newMetaNodes := by
  intro h
  rw [hs.fresh] at h
  obtain ⟨j, hj, heq⟩ := List.mem_map.mp h
  rw [List.length_map, List.length_range] at heq
  rw [hinj heq, List.mem_range] at hj
  exact absurd hj (Nat.lt_irrefl _)

/-- A component that is done without a meta node. -/
theorem Coscheduled.finish (hg : Closed g) (hs : Coscheduled g alloc s) (hi : i ∈ g.allNodes)
    {set : ChoiceDepGraphNodeSet} (hset : ∀ x, x ∈ set ↔ x ∈ g.getStronglyConnectedComponent i)
    (hsingle : ∀ x ∈ set, x = i) :
    Coscheduled g alloc { s with done := ChoiceDepGraphNodeSet.insertAll s.done set } := by
  have hself : i ∈ set := (hset i).mpr (component_self hg hi)
  refine { hs with done_nodes := ?_, done_component := ?_, mapped := ?_, single := ?_ }
  · intro n hn
    rcases mem_insertAll.mp hn with hn | hn
    · exact component_nodes hg hi ((hset n).mp hn)
    · exact hs.done_nodes n hn
  · intro n hn x hx
    rcases mem_insertAll.mp hn with hn | hn
    · exact mem_insertAll.mpr
        (Or.inl ((hset x).mpr (component_trans hg hi ((hset n).mp hn) hx)))
    · exact mem_insertAll.mpr (Or.inr (hs.done_component n hn x hx))
  · intro n m hm
    obtain ⟨hn, hrest⟩ := hs.mapped n m hm
    exact ⟨mem_insertAll.mpr (Or.inr hn), hrest⟩
  · intro n hn hnone x hx
    rcases mem_insertAll.mp hn with hn | hn
    · rw [hsingle n hn] at hx ⊢
      exact hsingle x ((hset x).mpr hx)
    · exact hs.single n hn hnone x hx

/-- **MAKING A META NODE** for a component that is not done keeps the invariant. -/
theorem Coscheduled.coschedule (hg : Closed g) (hinj : Function.Injective alloc)
    (hfresh : ∀ j, alloc j ∉ g.allNodes) (hs : Coscheduled g alloc s) (hi : i ∈ g.allNodes)
    (hdone : i ∉ s.done) {kind : NodeKind}
    (hkind : ∀ x, x ∈ kind.originalNodes ↔ x ∈ g.getStronglyConnectedComponent i) :
    Coscheduled g alloc (s.coschedule alloc kind) := by
  have hmem : ∀ x ∈ kind.originalNodes, x ∈ g.allNodes :=
    fun x hx => component_nodes hg hi ((hkind x).mp hx)
  have hnot : ∀ x ∈ kind.originalNodes, x ∉ s.done :=
    fun x hx => hs.component_not_done hg hi hdone ((hkind x).mp hx)
  have hnew := hs.alloc_not_mem hinj
  have hne : ∀ m ∈ s.newMetaNodes, m ≠ alloc s.newMetaNodes.length :=
    fun m hm heq => hnew (heq ▸ hm)
  have hkindOld : ∀ m ∈ s.newMetaNodes,
      (s.coschedule alloc kind).graph.kind m = s.graph.kind m :=
    fun m hm => Function.update_of_ne (hne m hm) _ _
  have hkindNew : (s.coschedule alloc kind).graph.kind (alloc s.newMetaNodes.length) = kind :=
    Function.update_self _ _ _
  have hfind : ∀ n, (s.coschedule alloc kind).mapping.find n =
      if n ∈ kind.originalNodes then some (alloc s.newMetaNodes.length)
      else s.mapping.find n := by
    intro n
    refine find_setEachTo.trans ?_
    simp only [OrderedMap.mem_keys]
  have hmeta : ∀ m, m ∈ (s.coschedule alloc kind).newMetaNodes ↔
      m ∈ s.newMetaNodes ∨ m = alloc s.newMetaNodes.length := by
    intro m
    exact List.mem_append.trans (or_congr_right List.mem_singleton)
  refine
    { nodes := hs.nodes
      inputs := hs.inputs
      intermediates := hs.intermediates
      outputs := hs.outputs
      old := ?_, fresh := ?_, done_nodes := ?_, done_component := ?_, mapped := ?_,
      member := ?_, component := ?_, original := ?_, remapped := ?_, single := ?_,
      marked := ?_, indirect := ?_, indirect_mem := ?_ }
  · intro n hn
    exact (hs.old n hn).trans
      (sameNode_newMetaNode _ _ (fun heq => hfresh _ (heq ▸ hn)))
  · show s.newMetaNodes ++ [alloc s.newMetaNodes.length] = _
    rw [show (s.coschedule alloc kind).newMetaNodes.length = s.newMetaNodes.length + 1 from
      List.length_append, List.range_succ, List.map_append, ← hs.fresh]
    rfl
  · intro n hn
    rcases mem_insertAll.mp hn with hn | hn
    · exact hmem n hn
    · exact hs.done_nodes n hn
  · intro n hn x hx
    rcases mem_insertAll.mp hn with hn | hn
    · exact mem_insertAll.mpr
        (Or.inl ((hkind x).mpr (component_trans hg hi ((hkind n).mp hn) hx)))
    · exact mem_insertAll.mpr (Or.inr (hs.done_component n hn x hx))
  · intro n m hm
    rw [hfind] at hm
    by_cases hn : n ∈ kind.originalNodes
    · rw [if_pos hn] at hm
      obtain rfl := Option.some.inj hm
      rw [hkindNew]
      exact ⟨mem_insertAll.mpr (Or.inl hn), (hmeta _).mpr (Or.inr rfl), hn⟩
    · rw [if_neg hn] at hm
      obtain ⟨hd, hm', hk⟩ := hs.mapped n m hm
      rw [hkindOld m hm']
      exact ⟨mem_insertAll.mpr (Or.inr hd), (hmeta m).mpr (Or.inl hm'), hk⟩
  · intro m hm n hn
    rw [hfind]
    rcases (hmeta m).mp hm with hm | rfl
    · rw [hkindOld m hm] at hn
      have hold := hs.member m hm n hn
      -- a node that is mapped is done, so it is in no new component
      rw [if_neg fun h => hnot n h (hs.mapped n m hold).1]
      exact hold
    · rw [hkindNew] at hn
      rw [if_pos hn]
  · intro m hm
    rcases (hmeta m).mp hm with hm | rfl
    · rw [hkindOld m hm]
      exact hs.component m hm
    · rw [hkindNew]
      exact ⟨i, hi, hkind⟩
  · intro m hm k
    rcases (hmeta m).mp hm with hm | rfl
    · rw [hkindOld m hm, ← hs.original m hm k]
      exact iff_of_eq (congrArg (k ∈ ·) (Function.update_of_ne (hne m hm) _ _))
    · rw [hkindNew]
      refine (iff_of_eq (congrArg (k ∈ ·) (Function.update_self _ _ _))).trans ?_
      exact ScheduleDependencies.mem_merge_members
        (fun j hj => (hs.old j (hmem j hj)).original)
  · intro m hm k
    rcases (hmeta m).mp hm with hm | rfl
    · rw [hkindOld m hm, ← hs.remapped m hm k]
      exact iff_of_eq (congrArg (k ∈ ·) (Function.update_of_ne (hne m hm) _ _))
    · rw [hkindNew]
      refine (iff_of_eq (congrArg (k ∈ ·) (Function.update_self _ _ _))).trans ?_
      exact ScheduleDependencies.mem_merge_members
        (fun j hj => (hs.old j (hmem j hj)).remapped)
  · intro n hn hnone x hx
    rw [hfind] at hnone
    by_cases hk : n ∈ kind.originalNodes
    · rw [if_pos hk] at hnone
      cases hnone
    · rw [if_neg hk] at hnone
      exact hs.single n ((mem_insertAll.mp hn).resolve_left hk) hnone x hx
  · intro m hm n hn hout
    rcases (hmeta m).mp hm with hm | rfl
    · rw [hkindOld m hm] at hn
      exact (Function.update_of_ne (hne m hm) _ _).trans (hs.marked m hm n hn hout)
    · rw [hkindNew] at hn
      refine (Function.update_self _ _ _).trans (List.any_eq_true.mpr ⟨n, ?_, ?_⟩)
      · exact OrderedMap.mem_keys.mpr hn
      · rw [(hs.old n (hmem n hn)).output, hout]
  · intro m hm n hn
    rcases (hmeta m).mp hm with hm | rfl
    · rw [hkindOld m hm] at hn
      rw [show (s.coschedule alloc kind).graph.indirectDepends m = s.graph.indirectDepends m from
        Function.update_of_ne (hne m hm) _ _]
      exact hs.indirect m hm n hn
    · rw [hkindNew] at hn
      rw [show (s.coschedule alloc kind).graph.indirectDepends (alloc s.newMetaNodes.length) =
        _ from Function.update_self _ _ _, ← (hs.old n (hmem n hn)).indirect]
      exact ScheduleDependencies.below_foldl_merge.2 n (OrderedMap.mem_keys.mpr hn)
  · intro m hm k hk
    rcases (hmeta m).mp hm with hm | rfl
    · rw [hkindOld m hm]
      rw [show (s.coschedule alloc kind).graph.indirectDepends m = s.graph.indirectDepends m from
        Function.update_of_ne (hne m hm) _ _] at hk
      exact hs.indirect_mem m hm k hk
    · rw [hkindNew]
      rw [show (s.coschedule alloc kind).graph.indirectDepends (alloc s.newMetaNodes.length) =
        _ from Function.update_self _ _ _] at hk
      exact (ScheduleDependencies.mem_merge_members
        (fun j hj => (hs.old j (hmem j hj)).indirect)).mp hk

/-- Components are computed as if no meta node had been made. -/
theorem Coscheduled.component_eq (hg : Closed g) (hs : Coscheduled g alloc s)
    (hi : i ∈ g.allNodes) :
    s.graph.getStronglyConnectedComponent i = g.getStronglyConnectedComponent i := by
  apply OrderedMap.ext_mem
  intro x
  rw [mem_getStronglyConnectedComponent, mem_getStronglyConnectedComponent,
    (hs.old i hi).indirect]
  apply or_congr_right
  apply and_congr_right
  intro _
  apply and_congr_right
  intro hx
  have hreach := (mem_iff_transGen hg.graph hg.sound hg.saturated hi).mp hx
  have hxn := hg.graph.mem_of_reflTransGen hi hreach.to_reflTransGen
  rw [(hs.old x hxn).indirect]

/-- Two members of a set of at most one node. -/
theorem eq_of_mem_of_length {set : ChoiceDepGraphNodeSet} (h : ¬ 1 < set.entries.length)
    {x y : Node} (hx : x ∈ set) (hy : y ∈ set) : x = y := by
  have hlen : set.keys.length ≤ 1 := by
    rw [OrderedMap.keys, List.length_map]
    omega
  have hx' := OrderedMap.mem_keys.mpr hx
  have hy' := OrderedMap.mem_keys.mpr hy
  cases hkeys : set.keys with
  | nil =>
      rw [hkeys] at hx'
      exact absurd hx' List.not_mem_nil
  | cons a rest =>
      rw [hkeys, List.length_cons] at hlen
      have hrest : rest = [] := List.length_eq_zero_iff.mp (by omega)
      rw [hkeys, hrest] at hx' hy'
      rw [List.mem_singleton.mp hx', List.mem_singleton.mp hy']

/-- **ONE NODE OF THE LOOP**: whatever branch it takes, the invariant carries over and the node
    is done. -/
theorem Coscheduled.process (hg : Closed g) (hinj : Function.Injective alloc)
    (hfresh : ∀ j, alloc j ∉ g.allNodes) (hs : Coscheduled g alloc s) (hi : i ∈ g.allNodes)
    {s' : Coscheduling} (h : s.process alloc i = .ok s') :
    Coscheduled g alloc s' ∧ i ∈ s'.done ∧ ∀ n ∈ s.done, n ∈ s'.done := by
  rw [Coscheduling.process] at h
  by_cases hdone : i ∈ s.done
  · rw [if_pos hdone] at h
    cases h
    exact ⟨hs, hdone, fun n hn => hn⟩
  · rw [if_neg hdone] at h
    have hcomp := hs.component_eq hg hi
    simp only [hcomp] at h
    have hself := component_self hg hi
    by_cases hmulti : 1 < (s.graph.getMultioutputComponent i).entries.length
    · rw [if_pos hmulti] at h
      by_cases hbad : ChoiceDepGraphNodeSet.overlaps (s.graph.getMultioutputComponent i) s.done ∨
          s.graph.getMultioutputComponent i ≠ g.getStronglyConnectedComponent i
      · rw [if_pos hbad] at h
        cases h
      · rw [if_neg hbad] at h
        cases h
        have heq := not_not.mp (not_or.mp hbad).2
        refine ⟨hs.coschedule hg hinj hfresh hi hdone ?_, ?_, ?_⟩
        · intro x
          rw [← heq]
          exact Iff.rfl
        · exact mem_insertAll.mpr (Or.inl (heq ▸ hself))
        · exact fun n hn => mem_insertAll.mpr (Or.inr hn)
    · rw [if_neg hmulti] at h
      by_cases hscc : 1 < (g.getStronglyConnectedComponent i).entries.length
      · rw [if_pos hscc] at h
        cases h
        refine ⟨hs.coschedule hg hinj hfresh hi hdone (fun x => Iff.rfl), ?_, ?_⟩
        · exact mem_insertAll.mpr (Or.inl hself)
        · exact fun n hn => mem_insertAll.mpr (Or.inr hn)
      · rw [if_neg hscc] at h
        cases h
        refine ⟨hs.finish hg hi (fun x => Iff.rfl)
          (fun x hx => eq_of_mem_of_length hscc hx hself), ?_, ?_⟩
        · exact mem_insertAll.mpr (Or.inl hself)
        · exact fun n hn => mem_insertAll.mpr (Or.inr hn)

end FirstLoop

/-- **THE FIRST LOOP**: when it does not stop, every node is done. -/
theorem coscheduleNodes_spec {g : StaticScheduler} (hg : Closed g) {alloc : Nat → Node}
    (hinj : Function.Injective alloc) (hfresh : ∀ j, alloc j ∉ g.allNodes) {s : Coscheduling}
    (h : g.coscheduleNodes alloc = .ok s) :
    Coscheduled g alloc s ∧ ∀ n ∈ g.allNodes, n ∈ s.done := by
  have hrest := foldlM_rest
    (P := fun rest s => (∀ n ∈ rest, n ∈ g.allNodes) ∧ Coscheduled g alloc s ∧
      ∀ n ∈ g.allNodes, n ∈ rest ∨ n ∈ s.done)
    (f := Coscheduling.process alloc) (by
      rintro i rest s s' ⟨hnodes, hs, hall⟩ hstep
      obtain ⟨hs', hi, hmono⟩ :=
        hs.process hg hinj hfresh (hnodes i List.mem_cons_self) hstep
      refine ⟨fun n hn => hnodes n (List.mem_cons_of_mem _ hn), hs', ?_⟩
      intro n hn
      rcases hall n hn with hn | hn
      · rcases List.mem_cons.mp hn with rfl | hn
        · exact Or.inr hi
        · exact Or.inl hn
      · exact Or.inr (hmono n hn))
    g.allNodes ⟨g, ∅, ∅, []⟩ s
    ⟨fun n hn => hn, coscheduled_init g alloc, fun n hn => Or.inl hn⟩ h
  obtain ⟨_, hs, hall⟩ := hrest
  exact ⟨hs, fun n hn => (hall n hn).resolve_left List.not_mem_nil⟩

/-! ## Redirecting -/

/-- Redirecting a list of nodes, each once. -/
theorem foldl_applyRemapping (map : ChoiceDepGraphNodeRemapping) (l : List Node)
    (hl : l.Nodup) (g : StaticScheduler) (R I : Node → ScheduleDependencies) :
    ∃ R' I', l.foldl (fun g i => g.applyRemapping map i) (g.withDepends R I) =
        g.withDepends R' I' ∧
      (∀ n, R' n = if n ∈ l then
        ScheduleDependencies.applyRemapping ((g.withDepends R I).directDepends n) map
        else R n) ∧
      ∀ n, I' n = if n ∈ l then ScheduleDependencies.applyRemapping (I n) map else I n := by
  induction l generalizing R I with
  | nil =>
      exact ⟨R, I, rfl, fun n => (if_neg List.not_mem_nil).symm,
        fun n => (if_neg List.not_mem_nil).symm⟩
  | cons i rest ih =>
      obtain ⟨hi, hrest⟩ := List.nodup_cons.mp hl
      obtain ⟨R', I', heq, hspec, hindirect⟩ := ih hrest
        (Function.update R i
          (ScheduleDependencies.applyRemapping ((g.withDepends R I).directDepends i) map))
        (Function.update I i (ScheduleDependencies.applyRemapping (I i) map))
      refine ⟨R', I', heq, ?_, ?_⟩
      · intro n
        rw [hspec n]
        by_cases hn : n = i
        · subst hn
          rw [if_neg hi, if_pos List.mem_cons_self, Function.update_self]
        · have hdirect : (g.withDepends (Function.update R i
                (ScheduleDependencies.applyRemapping ((g.withDepends R I).directDepends i) map))
                (Function.update I i (ScheduleDependencies.applyRemapping (I i) map))).directDepends
                n = (g.withDepends R I).directDepends n := by
            simp only [directDepends, withDepends, Function.update_of_ne hn]
            rfl
          rw [hdirect, Function.update_of_ne hn]
          by_cases hr : n ∈ rest
          · rw [if_pos hr, if_pos (List.mem_cons_of_mem _ hr)]
          · rw [if_neg hr, if_neg fun h => (List.mem_cons.mp h).elim hn hr]
      · intro n
        rw [hindirect n]
        by_cases hn : n = i
        · subst hn
          rw [if_neg hi, if_pos List.mem_cons_self, Function.update_self]
        · rw [Function.update_of_ne hn]
          by_cases hr : n ∈ rest
          · rw [if_pos hr, if_pos (List.mem_cons_of_mem _ hr)]
          · rw [if_neg hr, if_neg fun h => (List.mem_cons.mp h).elim hn hr]

/-- The nodes of the merged graph: those of the graph and the new meta nodes. -/
theorem Coscheduled.nodup {g : StaticScheduler} (hg : Closed g) {alloc : Nat → Node}
    (hinj : Function.Injective alloc) (hfresh : ∀ j, alloc j ∉ g.allNodes) {s : Coscheduling}
    (hs : Coscheduled g alloc s) : (g.allNodes ++ s.newMetaNodes).Nodup := by
  rw [List.nodup_append]
  refine ⟨hg.nodup, ?_, ?_⟩
  · rw [hs.fresh]
    exact (List.nodup_range).map hinj
  · intro n hn m hm heq
    rw [hs.fresh] at hm
    obtain ⟨j, _, rfl⟩ := List.mem_map.mp hm
    exact hfresh j (heq ▸ hn)

/-- Redirecting the nodes of the merged graph changes nothing but their maps. -/
theorem remapNodes_spec {g : StaticScheduler} (hg : Closed g) {alloc : Nat → Node}
    (hinj : Function.Injective alloc) (hfresh : ∀ j, alloc j ∉ g.allNodes) {s : Coscheduling}
    (hs : Coscheduled g alloc s) :
    ∃ R I, remapNodes s = s.graph.withDepends R I ∧
      ∀ n ∈ g.allNodes ++ s.newMetaNodes,
        R n = ScheduleDependencies.applyRemapping (s.graph.directDepends n) s.mapping ∧
          I n = ScheduleDependencies.applyRemapping (s.graph.indirectDepends n) s.mapping := by
  obtain ⟨R, I, heq, hR, hI⟩ := foldl_applyRemapping s.mapping (g.allNodes ++ s.newMetaNodes)
    (hs.nodup hg hinj hfresh) s.graph s.graph.directDependsRemapped s.graph.indirectDepends
  refine ⟨R, I, ?_, fun n hn => ⟨(hR n).trans (if_pos hn), (hI n).trans (if_pos hn)⟩⟩
  rw [remapNodes, hs.nodes, ← List.foldl_append]
  exact heq

/-- **EDGES ARE REDIRECTED TO CONTAINERS**: in the merged graph a node, or a meta node, depends
    on the containers of what it depended on. -/
theorem mem_directDepends_remapNodes {g : StaticScheduler} (hg : Closed g)
    {alloc : Nat → Node} (hinj : Function.Injective alloc)
    (hfresh : ∀ j, alloc j ∉ g.allNodes) {s : Coscheduling} (hs : Coscheduled g alloc s)
    {n : Node} (hn : n ∈ g.allNodes ++ s.newMetaNodes) {k : Node} :
    k ∈ (remapNodes s).directDepends n ↔ ∃ j ∈ s.graph.directDepends n, s.container j = k := by
  obtain ⟨R, I, hremap, hmaps⟩ := remapNodes_spec hg hinj hfresh hs
  have hRn := (hmaps n hn).1
  have hmem : k ∈ R n ↔ ∃ j ∈ s.graph.directDepends n, s.container j = k := by
    rw [hRn]
    exact ScheduleDependencies.mem_applyRemapping
  rw [hremap, directDepends]
  by_cases hempty : (R n).entries = []
  · -- nothing was redirected, so there was nothing to redirect, not even an original edge
    rw [show (s.graph.withDepends R I).directDependsRemapped n = R n from rfl, if_pos hempty]
    have hnone : ∀ j, j ∉ s.graph.directDepends n := by
      intro j hj
      have hcon : s.container j ∈ R n := by
        rw [hRn]
        exact ScheduleDependencies.mem_applyRemapping.mpr ⟨j, hj, rfl⟩
      exact OrderedMap.entries_eq_nil.mp hempty _ hcon
    have horig : ∀ j, j ∉ s.graph.directDependsOriginal n := by
      intro j hj
      by_cases hr : (s.graph.directDependsRemapped n).entries = []
      · apply hnone j
        rw [directDepends, if_pos hr]
        exact hj
      · apply hr
        apply OrderedMap.entries_eq_nil.mpr
        intro x hx
        apply hnone x
        rw [directDepends, if_neg hr]
        exact hx
    constructor
    · intro hk
      exact absurd hk (horig k)
    · rintro ⟨j, hj, _⟩
      exact absurd hj (hnone j)
  · rw [show (s.graph.withDepends R I).directDependsRemapped n = R n from rfl, if_neg hempty]
    exact hmem

/-- Asking a node for a schedule changes its loop and its indirect dependencies alone. -/
theorem findValidSchedule_eq (g : StaticScheduler) (choice : RuleChoiceAssignment) (i : Node) :
    ∃ I K, (g.findValidSchedule choice i).1 = { g with indirectDepends := I, kind := K } ∧
      ∀ n, n ≠ i → I n = g.indirectDepends n ∧ K n = g.kind n := by
  rw [findValidSchedule]
  cases g.kind i with
  | basic => exact ⟨g.indirectDepends, g.kind, rfl, fun n _ => ⟨rfl, rfl⟩⟩
  | multiOutput set => exact ⟨g.indirectDepends, g.kind, rfl, fun n _ => ⟨rfl, rfl⟩⟩
  | sliced set loop =>
      simp only
      split
      · exact ⟨_, g.kind, rfl, fun n hn => ⟨Function.update_of_ne hn _ _, rfl⟩⟩
      · exact ⟨_, _, rfl,
          fun n hn => ⟨Function.update_of_ne hn _ _, Function.update_of_ne hn _ _⟩⟩

/-- Asking meta nodes for schedules changes their loops and indirect dependencies alone. -/
theorem validateMetaNodes_eq {choice : RuleChoiceAssignment} {l : List Node}
    {g g' : StaticScheduler} (h : validateMetaNodes choice g l = .ok g') :
    ∃ I K, g' = { g with indirectDepends := I, kind := K } ∧
      ∀ n ∉ l, I n = g.indirectDepends n ∧ K n = g.kind n := by
  refine (foldlM_rest (P := fun rest x => (∀ n ∈ rest, n ∈ l) ∧
    ∃ I K, x = { g with indirectDepends := I, kind := K } ∧
      ∀ n ∉ l, I n = g.indirectDepends n ∧ K n = g.kind n) ?_ l g g'
    ⟨fun n hn => hn, g.indirectDepends, g.kind, rfl, fun n _ => ⟨rfl, rfl⟩⟩ h).2
  rintro i rest x x' ⟨hl, I, K, hx, hother⟩ hstep
  split at hstep
  · cases hstep
    obtain ⟨I', K', heq, hother'⟩ := findValidSchedule_eq x choice i
    refine ⟨fun n hn => hl n (List.mem_cons_of_mem _ hn), I', K', ?_, ?_⟩
    · rw [heq, hx]
    · intro n hn
      have hne : n ≠ i := fun h => hn (h ▸ hl i List.mem_cons_self)
      obtain ⟨hI, hK⟩ := hother' n hne
      rw [hx] at hI hK
      exact ⟨hI.trans (hother n hn).1, hK.trans (hother n hn).2⟩
  · cases hstep

/-- **THE MERGE**: when it succeeds, the dependencies of a node, or a meta node, are the
    containers of the dependencies the first loop left it. -/
theorem mem_directDepends_merged {g : StaticScheduler} (hg : Closed g) {alloc : Nat → Node}
    (hinj : Function.Injective alloc) (hfresh : ∀ j, alloc j ∉ g.allNodes)
    {choice : RuleChoiceAssignment} {s : Coscheduling} {g' : StaticScheduler}
    (hs : g.coscheduleNodes alloc = .ok s)
    (hmerge : g.mergeCoscheduledNodes choice alloc = .ok g') {n : Node}
    (hn : n ∈ g.allNodes ++ s.newMetaNodes) {k : Node} :
    k ∈ g'.directDepends n ↔ ∃ j ∈ s.graph.directDepends n, s.container j = k := by
  rw [mergeCoscheduledNodes, hs] at hmerge
  cases hv : validateMetaNodes choice (remapNodes s) s.newMetaNodes with
  | error e =>
      simp only [hv, bind, Except.bind] at hmerge
      cases hmerge
  | ok g₁ =>
      simp only [hv, bind, Except.bind, Except.ok.injEq] at hmerge
      obtain ⟨I, K, rfl, _⟩ := validateMetaNodes_eq hv
      rw [← mem_directDepends_remapNodes hg hinj hfresh
        (coscheduleNodes_spec hg hinj hfresh hs).1 hn, ← hmerge]
      exact Iff.rfl

/-! ## Containers -/

section Containers

variable {g : StaticScheduler} {alloc : Nat → Node} {s : Coscheduling} (hg : Closed g)
  (hfresh : ∀ j, alloc j ∉ g.allNodes) (hs : Coscheduled g alloc s)

include hfresh hs in
theorem Coscheduled.meta_not_mem {m : Node} (hm : m ∈ s.newMetaNodes) : m ∉ g.allNodes := by
  rw [hs.fresh] at hm
  obtain ⟨j, _, rfl⟩ := List.mem_map.mp hm
  exact hfresh j

include hg hs in
/-- The members of a meta node are the component of any of them. -/
theorem Coscheduled.mem_members {n m x : Node} (h : s.mapping.find n = some m) :
    x ∈ (s.graph.kind m).originalNodes ↔ x ∈ g.getStronglyConnectedComponent n := by
  obtain ⟨_, hm, hn⟩ := hs.mapped n m h
  obtain ⟨i, hi, hmem⟩ := hs.component m hm
  rw [hmem] at hn ⊢
  have hnn := component_nodes hg hi hn
  constructor
  · exact component_trans hg hnn (component_symm hg hi hn)
  · exact component_trans hg hi hn

include hg hfresh hs in
/-- **TWO NODES HAVE ONE CONTAINER** exactly when they are in one component. -/
theorem Coscheduled.container_eq_iff {a b : Node} (ha : a ∈ g.allNodes) (hb : b ∈ g.allNodes)
    (hdone : a ∈ s.done) :
    s.container a = s.container b ↔ b ∈ g.getStronglyConnectedComponent a := by
  rw [Coscheduling.container, Coscheduling.container]
  cases hfa : s.mapping.find a with
  | none =>
      constructor
      · intro heq
        cases hfb : s.mapping.find b with
        | none =>
            rw [hfb] at heq
            rw [show b = a from heq.symm]
            exact component_self hg ha
        | some m =>
            rw [hfb] at heq
            have hm := hs.meta_not_mem hfresh (hs.mapped b m hfb).2.1
            rw [← show a = m from heq] at hm
            exact absurd ha hm
      · intro hmem
        have hba := hs.single a hdone hfa b hmem
        rw [hba, hfa]
  | some m =>
      have hm := (hs.mapped a m hfa).2.1
      rw [← hs.mem_members hg hfa]
      constructor
      · intro heq
        cases hfb : s.mapping.find b with
        | none =>
            rw [hfb] at heq
            have hmem := hs.meta_not_mem hfresh hm
            rw [show m = b from heq] at hmem
            exact absurd hb hmem
        | some m' =>
            rw [hfb] at heq
            rw [show m = m' from heq]
            exact (hs.mapped b m' hfb).2.2
      · intro hmem
        rw [hs.member m hm b hmem]
        rfl

include hs in
theorem Coscheduled.container_mem {a : Node} (ha : a ∈ g.allNodes) :
    s.container a ∈ g.allNodes ++ s.newMetaNodes := by
  rw [Coscheduling.container]
  cases hfa : s.mapping.find a with
  | none => exact List.mem_append_left _ ha
  | some m => exact List.mem_append_right _ (hs.mapped a m hfa).2.1

include hg hs in
/-- **WHAT A CONTAINER DEPENDS ON** before edges are redirected: the remapped dependencies of
    its members if any member has some, and else their original ones. -/
theorem Coscheduled.mem_directDepends_container {a k : Node} (ha : a ∈ g.allNodes)
    (hdone : a ∈ s.done) :
    k ∈ s.graph.directDepends (s.container a) ↔
      (∃ x ∈ g.getStronglyConnectedComponent a, k ∈ g.directDependsRemapped x) ∨
        (∀ x ∈ g.getStronglyConnectedComponent a, ∀ j, j ∉ g.directDependsRemapped x) ∧
          ∃ x ∈ g.getStronglyConnectedComponent a, k ∈ g.directDependsOriginal x := by
  -- read the two maps of the container in terms of the members
  have hmaps : (∀ j, j ∈ s.graph.directDependsRemapped (s.container a) ↔
        ∃ x ∈ g.getStronglyConnectedComponent a, j ∈ g.directDependsRemapped x) ∧
      ∀ j, j ∈ s.graph.directDependsOriginal (s.container a) ↔
        ∃ x ∈ g.getStronglyConnectedComponent a, j ∈ g.directDependsOriginal x := by
    rw [Coscheduling.container]
    cases hfa : s.mapping.find a with
    | none =>
        have hsingle := hs.single a hdone hfa
        have hold := hs.old a ha
        constructor
        · intro j
          refine (iff_of_eq (congrArg (j ∈ ·) hold.remapped)).trans ?_
          constructor
          · intro hj
            exact ⟨a, component_self hg ha, hj⟩
          · rintro ⟨x, hx, hj⟩
            exact hsingle x hx ▸ hj
        · intro j
          refine (iff_of_eq (congrArg (j ∈ ·) hold.original)).trans ?_
          constructor
          · intro hj
            exact ⟨a, component_self hg ha, hj⟩
          · rintro ⟨x, hx, hj⟩
            exact hsingle x hx ▸ hj
    | some m =>
        have hm := (hs.mapped a m hfa).2.1
        constructor
        · intro j
          refine (hs.remapped m hm j).trans ?_
          simp only [hs.mem_members hg hfa]
        · intro j
          refine (hs.original m hm j).trans ?_
          simp only [hs.mem_members hg hfa]
  obtain ⟨hremapped, horiginal⟩ := hmaps
  rw [directDepends]
  by_cases hempty : (s.graph.directDependsRemapped (s.container a)).entries = []
  · have hnone := OrderedMap.entries_eq_nil.mp hempty
    have hall : ∀ x ∈ g.getStronglyConnectedComponent a, ∀ j, j ∉ g.directDependsRemapped x :=
      fun x hx j hj => hnone j ((hremapped j).mpr ⟨x, hx, hj⟩)
    rw [if_pos hempty, horiginal]
    constructor
    · intro h
      exact Or.inr ⟨hall, h⟩
    · rintro (⟨x, hx, hk⟩ | ⟨_, h⟩)
      · exact absurd hk (hall x hx k)
      · exact h
  · rw [if_neg hempty, hremapped]
    constructor
    · exact Or.inl
    · rintro (h | ⟨hall, _⟩)
      · exact h
      · refine absurd (OrderedMap.entries_eq_nil.mpr fun j hj => ?_) hempty
        obtain ⟨x, hx, hj⟩ := (hremapped j).mp hj
        exact hall x hx j hj

end Containers

end StaticScheduler

end PbScheduler
