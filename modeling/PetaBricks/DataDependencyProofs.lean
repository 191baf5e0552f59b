import PetaBricks.DataDependencyModel
import PetaBricks.CoschedulingProofs

/-!
# Data dependencies — from accesses to edges, through the choice of rules and the merge

An `Access` is one execution of a user rule, writing a cell of one matrix while it reads a cell
of another, which the entries of the rule cover.  The chain of this file:

  * the nodes of both cells are looked up, because answers to comparisons are true and the
    nodes of a matrix do not overlap (`mem_lookupNode`);
  * collecting is a run of single edge additions (`Adds`), so an edge that is added stays, and
    every edge names a user rule;
  * choosing a rule keeps the edge: a user rule selects it, and under a wrapper nothing is
    selected, which stands for everything;
  * the merge redirects it, unless what the members of a meta node selected hides that one of
    them selected nothing.

The headline is `dependency_kept_iff`.
-/

namespace PbDataDependency

open PbOrderedMap PbScheduler PbMaxima

variable {F S : Type} [DecidableEq F] {M : MaximaWrapper F S}

/-! ## Intersecting -/

/-- Coordinates that share a cell are not found apart. -/
theorem intersects_ne_false (as bs : List (F × F)) (s : S) (cell : Cell)
    (ha : ∀ d c, as[d]? = some c → M.eval c.1 s ≤ cell d ∧ cell d < M.eval c.2 s)
    (hb : ∀ d c, bs[d]? = some c → M.eval c.1 s ≤ cell d ∧ cell d < M.eval c.2 s) :
    intersects M as bs ≠ some false := by
  induction as generalizing bs cell with
  | nil =>
      intro h
      rw [intersects] at h
      · cases h
      · intro a as b bs h'
        cases h'
  | cons a as ih =>
      cases bs with
      | nil =>
          intro h
          rw [intersects] at h
          · cases h
          · intro a' as' b' bs' _ h'
            cases h'
      | cons b bs =>
          have ha0 := ha 0 a rfl
          have hb0 := hb 0 b rfl
          have htail := ih bs (fun d => cell (d + 1)) (fun d c h => ha (d + 1) c h)
            (fun d c h => hb (d + 1) c h)
          rw [intersects]
          cases h₁ : M.compare a.2 .le b.1 with
          | none => exact fun h => by cases h
          | some answer =>
              cases answer with
              | true =>
                  have : M.eval a.2 s ≤ M.eval b.1 s :=
                    (MaximaWrapper.holds_of_compare h₁ s).mpr rfl
                  omega
              | false =>
                  cases h₂ : M.compare a.1 .ge b.2 with
                  | none => exact fun h => by cases h
                  | some answer =>
                      cases answer with
                      | true =>
                          have : M.eval b.2 s ≤ M.eval a.1 s :=
                            (MaximaWrapper.holds_of_compare h₂ s).mpr rfl
                          omega
                      | false => exact htail

/-- **REGIONS THAT SHARE A CELL INTERSECT**, if the question has an answer at all. -/
theorem SimpleRegion.hasIntersect_ne_false {r that : SimpleRegion F} {s : S} {cell : Cell}
    (hdim : r.dimensions = that.dimensions) (hr : r.Contains M s cell)
    (hthat : that.Contains M s cell) : r.hasIntersect M that ≠ some false := by
  rw [hasIntersect]
  by_cases heq : r = that
  · rw [if_pos heq]
    exact fun h => by cases h
  · rw [if_neg heq, if_neg (not_not.mpr hdim)]
    exact intersects_ne_false _ _ s cell hr hthat

/-! ## Looking up nodes -/

namespace Transform

variable {tx : Transform M}

theorem lookupLoop_spec {region : SimpleRegion F} {l : List Node}
    {rv out : ChoiceDepGraphNodeSet} (h : tx.lookupLoop region l rv = some out) :
    (∀ x ∈ rv, x ∈ out) ∧ ∀ x ∈ out, x ∈ rv ∨ x ∈ l := by
  induction l generalizing rv with
  | nil =>
      rw [lookupLoop] at h
      cases h
      exact ⟨fun x hx => hx, fun x hx => Or.inl hx⟩
  | cons i rest ih =>
      rw [lookupLoop] at h
      by_cases heq : region = tx.region i
      · rw [if_pos heq] at h
        cases h
        refine ⟨fun x hx => OrderedMap.mem_insert.mpr (Or.inr hx), ?_⟩
        intro x hx
        rcases OrderedMap.mem_insert.mp hx with rfl | hx
        · exact Or.inr List.mem_cons_self
        · exact Or.inl hx
      · rw [if_neg heq] at h
        cases hi : (tx.region i).hasIntersect M region with
        | none =>
            rw [hi] at h
            cases h
        | some answer =>
            rw [hi] at h
            cases answer with
            | true =>
                obtain ⟨h1, h2⟩ := ih h
                refine ⟨fun x hx => h1 x (OrderedMap.mem_insert.mpr (Or.inr hx)), ?_⟩
                intro x hx
                rcases h2 x hx with hx | hx
                · rcases OrderedMap.mem_insert.mp hx with rfl | hx
                  · exact Or.inr List.mem_cons_self
                  · exact Or.inl hx
                · exact Or.inr (List.mem_cons_of_mem _ hx)
            | false =>
                obtain ⟨h1, h2⟩ := ih h
                exact ⟨h1, fun x hx => (h2 x hx).imp id (List.mem_cons_of_mem _)⟩

/-- The loop finds every node that shares a cell with the region: it stops early at a node with
    the region's text only, and then no later node has a cell of the region. -/
theorem mem_lookupLoop {matrix : Matrix} {region : SimpleRegion F} {s : S} {cell : Cell}
    (hcell : region.Contains M s cell) {b : Node} (hb : b ∈ tx.matrixToNodes matrix)
    (hbcell : (tx.region b).Contains M s cell)
    (hdim : region.dimensions = tx.numDimensions matrix) {l : List Node}
    {rv out : ChoiceDepGraphNodeSet} (hl : ∀ i ∈ l, i ∈ tx.matrixToNodes matrix)
    (hbl : b ∈ l) (h : tx.lookupLoop region l rv = some out) : b ∈ out := by
  induction l generalizing rv with
  | nil => exact absurd hbl List.not_mem_nil
  | cons i rest ih =>
      have hrest : ∀ j ∈ rest, j ∈ tx.matrixToNodes matrix :=
        fun j hj => hl j (List.mem_cons_of_mem _ hj)
      rw [lookupLoop] at h
      by_cases heq : region = tx.region i
      · rw [if_pos heq] at h
        cases h
        have hib := tx.disjoint matrix i (hl i List.mem_cons_self) b hb s cell
          (heq ▸ hcell) hbcell
        exact OrderedMap.mem_insert.mpr (Or.inl hib.symm)
      · rw [if_neg heq] at h
        cases hi : (tx.region i).hasIntersect M region with
        | none =>
            rw [hi] at h
            cases h
        | some answer =>
            rw [hi] at h
            rcases List.mem_cons.mp hbl with rfl | hbl
            · have hdims : (tx.region b).dimensions = region.dimensions := by
                rw [hdim, tx.dimensions_region matrix b hb]
              have hne := SimpleRegion.hasIntersect_ne_false hdims hbcell hcell
              cases answer with
              | true =>
                  have hinsert : b ∈ rv.insert b () := OrderedMap.mem_insert.mpr (Or.inl rfl)
                  exact (lookupLoop_spec h).1 b hinsert
              | false => exact absurd hi hne
            · cases answer with
              | true => exact ih hrest hbl h
              | false => exact ih hrest hbl h

theorem lookupNode_nodes {matrix : Matrix} {region : SimpleRegion F}
    {out : ChoiceDepGraphNodeSet} (h : tx.lookupNode matrix region = some out) {x : Node}
    (hx : x ∈ out) : x ∈ tx.matrixToNodes matrix := by
  rw [lookupNode] at h
  by_cases hzero : tx.numDimensions matrix = 0
  · simp only [if_pos hzero] at h
    match hnodes : tx.matrixToNodes matrix with
    | [] => simp [hnodes] at h
    | [n] =>
        simp only [hnodes, Option.bind_eq_bind, Option.bind_some] at h
        split at h
        · cases h
        · cases h
          rcases OrderedMap.mem_insert.mp hx with rfl | hx
          · exact List.mem_cons_self
          · exact absurd hx (OrderedMap.not_mem_empty x)
    | n :: n' :: rest => simp [hnodes] at h
  · simp only [if_neg hzero] at h
    cases hl : tx.lookupLoop region (tx.matrixToNodes matrix) ∅ with
    | none => simp [hl] at h
    | some rv =>
        simp only [hl, Option.bind_eq_bind, Option.bind_some] at h
        split at h
        · cases h
        · cases h
          exact ((lookupLoop_spec hl).2 x hx).resolve_left (OrderedMap.not_mem_empty x)

/-- **LOOKUP FINDS EVERY NODE WITH A CELL OF THE REGION.** -/
theorem mem_lookupNode {matrix : Matrix} {region : SimpleRegion F} {s : S} {cell : Cell}
    (hcell : region.Contains M s cell)
    (hdim : region.dimensions = tx.numDimensions matrix) {b : Node}
    (hb : b ∈ tx.matrixToNodes matrix) (hbcell : (tx.region b).Contains M s cell)
    {out : ChoiceDepGraphNodeSet} (h : tx.lookupNode matrix region = some out) : b ∈ out := by
  rw [lookupNode] at h
  by_cases hzero : tx.numDimensions matrix = 0
  · simp only [if_pos hzero] at h
    match hnodes : tx.matrixToNodes matrix with
    | [] => simp [hnodes] at h
    | [n] =>
        simp only [hnodes, Option.bind_eq_bind, Option.bind_some] at h
        rw [hnodes] at hb
        split at h
        · cases h
        · cases h
          exact OrderedMap.mem_insert.mpr (Or.inl (List.mem_singleton.mp hb))
    | n :: n' :: rest => simp [hnodes] at h
  · simp only [if_neg hzero] at h
    cases hl : tx.lookupLoop region (tx.matrixToNodes matrix) ∅ with
    | none => simp [hl] at h
    | some rv =>
        simp only [hl, Option.bind_eq_bind, Option.bind_some] at h
        split at h
        · cases h
        · cases h
          exact mem_lookupLoop hcell hb hbcell hdim (fun i hi => hi) hb hl

/-! ## Adding edges -/

/-- The dependency of `a` on `b` names a rule and holds a direction. -/
def Recorded (g : StaticScheduler) (a b : Node) (r : Rule) (dir : DependencyDirection) : Prop :=
  ∃ v, (g.directDependsOriginal a).find b = some v ∧ r ∈ v.rules ∧ dir ≤ v.direction

/-- What an added edge leaves between two nodes. -/
theorem find_addDependency (g : StaticScheduler) (a b : Node) (r : Rule)
    (dir : DependencyDirection) (n k : Node) :
    ((addDependency g a b r dir).directDependsOriginal n).find k =
      if n = a ∧ k = b then
        some ⟨insert r (((g.directDependsOriginal a).find b).getD default).rules,
          (((g.directDependsOriginal a).find b).getD default).direction ⊔ dir⟩
      else (g.directDependsOriginal n).find k := by
  rw [addDependency]
  by_cases hn : n = a
  · subst hn
    simp only [Function.update_self, OrderedMap.find_update]
    by_cases hk : k = b
    · subst hk
      rw [if_pos rfl, if_pos ⟨trivial, rfl⟩]
      rfl
    · rw [if_neg hk, if_neg fun h => hk h.2]
  · simp only [Function.update_of_ne hn]
    rw [if_neg fun h => hn h.1]

theorem recorded_addDependency (g : StaticScheduler) (a b : Node) (r : Rule)
    (dir : DependencyDirection) : Recorded (addDependency g a b r dir) a b r dir :=
  ⟨_, (find_addDependency g a b r dir a b).trans (if_pos ⟨rfl, rfl⟩),
    Finset.mem_insert_self _ _, le_sup_right⟩

/-- An added edge takes nothing away. -/
theorem Recorded.addDependency {g : StaticScheduler} {n k : Node} {q : Rule}
    {d : DependencyDirection} (h : Recorded g n k q d) (a b : Node) (r : Rule)
    (dir : DependencyDirection) : Recorded (addDependency g a b r dir) n k q d := by
  obtain ⟨v, hv, hq, hd⟩ := h
  by_cases hnk : n = a ∧ k = b
  · obtain ⟨rfl, rfl⟩ := hnk
    refine ⟨_, (find_addDependency g n k r dir n k).trans (if_pos ⟨rfl, rfl⟩), ?_, ?_⟩
    · rw [hv]
      exact Finset.mem_insert_of_mem hq
    · rw [hv]
      exact hd.trans le_sup_left
  · exact ⟨v, (find_addDependency g a b r dir n k).trans (by rw [if_neg hnk, hv]), hq, hd⟩

/-- A run of edge additions, each for a user rule of the transform, from a node the rule
    provides to a node. -/
inductive Adds (tx : Transform M) (g : StaticScheduler) : StaticScheduler → Prop
  | refl : Adds tx g g
  | add {g' : StaticScheduler} (h : Adds tx g g') {u : UserRule F}
      (hu : u ∈ userRulesOf tx.rules) {m : Matrix} (hm : m ∈ u.provides) {a b : Node}
      (ha : a ∈ tx.matrixToNodes m) (hb : b ∈ tx.scheduler.allNodes)
      (dir : DependencyDirection) : Adds tx g (addDependency g' a b u.id dir)

omit [DecidableEq F] in
theorem Adds.trans {g g' g'' : StaticScheduler} (h : Adds tx g g') (h' : Adds tx g' g'') :
    Adds tx g g'' := by
  induction h' with
  | refl => exact h
  | add _ hu hm ha hb dir ih => exact ih.add hu hm ha hb dir

omit [DecidableEq F] in
/-- **WHAT IS RECORDED STAYS RECORDED.** -/
theorem Adds.recorded {g g' : StaticScheduler} (h : Adds tx g g') {n k : Node} {q : Rule}
    {d : DependencyDirection} (hr : Recorded g n k q d) : Recorded g' n k q d := by
  induction h with
  | refl => exact hr
  | add _ _ _ _ _ dir ih => exact ih.addDependency _ _ _ dir

/-- What the edges of a scheduler that is being built are like. -/
structure Collected (tx : Transform M) (g : StaticScheduler) : Prop where
  nodes : g.allNodes = tx.scheduler.allNodes
  inputs : g.inputsOriginal = tx.scheduler.inputsOriginal
  intermediates : g.intermediatesOriginal = tx.scheduler.intermediatesOriginal
  outputs : g.outputsOriginal = tx.scheduler.outputsOriginal
  marks : g.isOutput = tx.scheduler.isOutput
  edge : ∀ n k v, (g.directDependsOriginal n).find k = some v →
    k ∈ tx.scheduler.allNodes ∧ v.rules.Nonempty ∧
      (∀ r ∈ v.rules, ∃ u ∈ userRulesOf tx.rules, u.id = r) ∧
      ∃ u ∈ userRulesOf tx.rules, ∃ m ∈ u.provides, n ∈ tx.matrixToNodes m

omit [DecidableEq F] in
theorem collected_init (tx : Transform M) : Collected tx tx.scheduler where
  nodes := rfl
  inputs := rfl
  intermediates := rfl
  outputs := rfl
  marks := rfl
  edge := by
    intro n k v hv
    rw [tx.no_depends n] at hv
    cases hv

omit [DecidableEq F] in
/-- Every run of additions keeps the shape of the edges. -/
theorem Adds.collected {g g' : StaticScheduler} (h : Adds tx g g') (hg : Collected tx g) :
    Collected tx g' := by
  induction h with
  | refl => exact hg
  | @add g' h u hu m hm a b ha hb dir ih =>
      refine
        { nodes := ih.nodes
          inputs := ih.inputs
          intermediates := ih.intermediates
          outputs := ih.outputs
          marks := ih.marks
          edge := ?_ }
      intro n k v hv
      rw [find_addDependency] at hv
      by_cases hnk : n = a ∧ k = b
      · rw [if_pos hnk] at hv
        obtain ⟨rfl, rfl⟩ := hnk
        cases hv
        refine ⟨hb, ⟨u.id, Finset.mem_insert_self _ _⟩, ?_, u, hu, m, hm, ha⟩
        intro r hr
        rcases Finset.mem_insert.mp hr with rfl | hr
        · exact ⟨u, hu, rfl⟩
        · cases hfind : (g'.directDependsOriginal n).find k with
          | none =>
              rw [hfind] at hr
              exact absurd hr (Finset.notMem_empty r)
          | some w =>
              rw [hfind] at hr
              exact (ih.edge n k w hfind).2.2.1 r hr
      · rw [if_neg hnk] at hv
        exact ih.edge n k v hv

/-! ## The loops that add edges -/

/-- A loop that may stop at an assertion keeps what each of its steps keeps; the invariant may
    speak of what is left to do. -/
theorem foldlM_option_rest {α σ : Type} {P : List α → σ → Prop} {f : σ → α → Option σ}
    (hstep : ∀ a rest s s', P (a :: rest) s → f s a = some s' → P rest s') (l : List α) :
    ∀ s s', P l s → l.foldlM f s = some s' → P [] s' := by
  induction l with
  | nil =>
      intro s s' hs h
      cases h
      exact hs
  | cons a rest ih =>
      intro s s' hs h
      rw [List.foldlM_cons] at h
      cases hf : f s a with
      | none =>
          rw [hf] at h
          cases h
      | some s₁ =>
          rw [hf] at h
          exact ih s₁ s' (hstep a rest s s₁ hs hf) h

/-- The pairs of two sets, in the order the loops meet them. -/
def pairs (pNode dNode : ChoiceDepGraphNodeSet) : List (Node × Node) :=
  pNode.keys.flatMap fun a => dNode.keys.map (Prod.mk a)

theorem mem_pairs {pNode dNode : ChoiceDepGraphNodeSet} {e : Node × Node} :
    e ∈ pairs pNode dNode ↔ e.1 ∈ pNode ∧ e.2 ∈ dNode := by
  rw [pairs, List.mem_flatMap]
  constructor
  · rintro ⟨a, ha, he⟩
    obtain ⟨b, hb, rfl⟩ := List.mem_map.mp he
    exact ⟨OrderedMap.mem_keys.mp ha, OrderedMap.mem_keys.mp hb⟩
  · rintro ⟨ha, hb⟩
    exact ⟨e.1, OrderedMap.mem_keys.mpr ha, List.mem_map.mpr ⟨e.2, OrderedMap.mem_keys.mpr hb, rfl⟩⟩

theorem addPossible_eq (possible : Node → Node → Bool) (r : Rule) (dir : DependencyDirection)
    (pNode dNode : ChoiceDepGraphNodeSet) (g : StaticScheduler) :
    addPossible possible r dir pNode dNode g = (pairs pNode dNode).foldl
      (fun g e => if possible e.1 e.2 then addDependency g e.1 e.2 r dir else g) g := by
  rw [addPossible, pairs, List.foldl_flatMap]
  simp only [List.foldl_map]

omit [DecidableEq F] in
/-- Adding possible edges from nodes a rule provides to nodes. -/
theorem adds_addPossible {u : UserRule F} (hu : u ∈ userRulesOf tx.rules) {m : Matrix}
    (hm : m ∈ u.provides) {pNode dNode : ChoiceDepGraphNodeSet}
    (hp : ∀ a ∈ pNode, a ∈ tx.matrixToNodes m) (hd : ∀ b ∈ dNode, b ∈ tx.scheduler.allNodes)
    (possible : Node → Node → Bool) (dir : DependencyDirection) (g : StaticScheduler) :
    Adds tx g (addPossible possible u.id dir pNode dNode g) := by
  rw [addPossible_eq]
  have hall : ∀ e ∈ pairs pNode dNode, e.1 ∈ pNode ∧ e.2 ∈ dNode := fun e he => mem_pairs.mp he
  generalize pairs pNode dNode = l at *
  induction l generalizing g with
  | nil => exact Adds.refl
  | cons e rest ih =>
      obtain ⟨ha, hb⟩ := hall e List.mem_cons_self
      have hrest := fun g => ih g (fun x hx => hall x (List.mem_cons_of_mem _ hx))
      rw [List.foldl_cons]
      by_cases hab : possible e.1 e.2 = true
      · rw [if_pos hab]
        exact (Adds.refl.add hu hm (hp e.1 ha) (hd e.2 hb) dir).trans (hrest _)
      · rw [if_neg hab]
        exact hrest g

/-- A possible edge between the two sets is recorded. -/
theorem recorded_addPossible {possible : Node → Node → Bool} {r : Rule}
    {dir : DependencyDirection} {pNode dNode : ChoiceDepGraphNodeSet} {a b : Node}
    (ha : a ∈ pNode) (hb : b ∈ dNode) (hab : possible a b = true) (g : StaticScheduler) :
    Recorded (addPossible possible r dir pNode dNode g) a b r dir := by
  rw [addPossible_eq]
  have hmem : (a, b) ∈ pairs pNode dNode := mem_pairs.mpr ⟨ha, hb⟩
  have hkeep : ∀ (l : List (Node × Node)) (g : StaticScheduler), Recorded g a b r dir →
      Recorded (l.foldl
        (fun g e => if possible e.1 e.2 then addDependency g e.1 e.2 r dir else g) g) a b r dir := by
    intro l
    induction l with
    | nil => exact fun g h => h
    | cons e rest ih =>
        intro g h
        rw [List.foldl_cons]
        by_cases he : possible e.1 e.2 = true
        · rw [if_pos he]
          exact ih _ (h.addDependency _ _ _ _)
        · rw [if_neg he]
          exact ih _ h
  generalize pairs pNode dNode = l at *
  induction l generalizing g with
  | nil => exact absurd hmem List.not_mem_nil
  | cons e rest ih =>
      rw [List.foldl_cons]
      rcases List.mem_cons.mp hmem with rfl | hmem
      · rw [if_pos hab]
        exact hkeep rest _ (recorded_addDependency g a b r dir)
      · exact ih _ hmem

/-! ## Collecting -/

theorem lookupNode_allNodes {matrix : Matrix} {region : SimpleRegion F}
    {out : ChoiceDepGraphNodeSet} (h : tx.lookupNode matrix region = some out) :
    ∀ x ∈ out, x ∈ tx.scheduler.allNodes :=
  fun x hx => tx.mem_allNodes matrix x (lookupNode_nodes h hx)

section CollectUserRule

variable {u : UserRule F} (hu : u ∈ userRulesOf tx.rules) {m : Matrix} (hm : m ∈ u.provides)
  {pNode : ChoiceDepGraphNodeSet} (hp : ∀ a ∈ pNode, a ∈ tx.matrixToNodes m)
  {g g' : StaticScheduler}

include hu hm hp

theorem adds_collectDepends (h : tx.collectDepends u pNode g = some g') : Adds tx g g' := by
  refine foldlM_option_rest (P := fun _ x => Adds tx g x) ?_ u.depends.entries g g' Adds.refl h
  intro d rest x x' hx hstep
  cases hl : tx.lookupNode d.1 d.2.region with
  | none => simp [hl] at hstep
  | some dNode =>
      simp only [hl, Option.bind_eq_bind, Option.bind_some, Option.some.injEq] at hstep
      rw [← hstep]
      exact hx.trans (adds_addPossible hu hm hp (lookupNode_allNodes hl) _ _ x)

theorem adds_collectOutputs (h : tx.collectOutputs u m pNode g = some g') : Adds tx g g' := by
  refine foldlM_option_rest (P := fun _ x => Adds tx g x) ?_ u.provides.entries g g' Adds.refl h
  intro pp rest x x' hx hstep
  by_cases hsame : m = pp.1
  · rw [if_pos hsame] at hstep
    cases hstep
    exact hx
  · rw [if_neg hsame] at hstep
    cases hl : tx.lookupNode pp.1 pp.2.region with
    | none => simp [hl] at hstep
    | some dNode =>
        simp only [hl, Option.bind_eq_bind, Option.bind_some, Option.some.injEq] at hstep
        rw [← hstep]
        exact hx.trans (adds_addPossible hu hm hp (lookupNode_allNodes hl) _ _ x)

/-- The edge to a node of a region the rule reads is recorded, if the regions allow it. -/
theorem recorded_collectDepends {rm : Matrix} {dep : MatrixDependency F}
    (hdep : u.depends.find rm = some dep) {a b : Node} (ha : a ∈ pNode)
    (hb : ∀ dNode, tx.lookupNode rm dep.region = some dNode → b ∈ dNode)
    (hpossible : dependencyPossible M (tx.region a) (tx.region b) dep.direction = true)
    (h : tx.collectDepends u pNode g = some g') : Recorded g' a b u.id dep.direction := by
  have hloop := foldlM_option_rest
    (P := fun rest x => (rm, dep) ∈ rest ∨ Recorded x a b u.id dep.direction)
    (f := fun g d => do
      let dNode ← tx.lookupNode d.1 d.2.region
      some (addPossible
        (fun a b => dependencyPossible M (tx.region a) (tx.region b) d.2.direction)
        u.id d.2.direction pNode dNode g)) (by
      intro d rest x x' hx hstep
      cases hl : tx.lookupNode d.1 d.2.region with
      | none => simp [hl] at hstep
      | some dNode =>
          simp only [hl, Option.bind_eq_bind, Option.bind_some, Option.some.injEq] at hstep
          rw [← hstep]
          rcases hx with hx | hx
          · rcases List.mem_cons.mp hx with rfl | hx
            · exact Or.inr (recorded_addPossible ha (hb dNode hl) hpossible x)
            · exact Or.inl hx
          · exact Or.inr
              ((adds_addPossible hu hm hp (lookupNode_allNodes hl) _ _ x).recorded hx))
    u.depends.entries g g' (Or.inl (OrderedMap.mem_entries.mpr hdep)) h
  exact hloop.resolve_left List.not_mem_nil

end CollectUserRule

/-- What one provided entry of a rule adds. -/
theorem adds_entry {u : UserRule F} (hu : u ∈ userRulesOf tx.rules) {m : Matrix}
    (hm : m ∈ u.provides) {pNode : ChoiceDepGraphNodeSet}
    (hp : ∀ a ∈ pNode, a ∈ tx.matrixToNodes m) {g g₁ g' : StaticScheduler}
    (h₁ : tx.collectDepends u pNode g = some g₁) (h₂ : tx.collectOutputs u m pNode g₁ = some g') :
    Adds tx g g' :=
  (adds_collectDepends hu hm hp h₁).trans (adds_collectOutputs hu hm hp h₂)

/-- The steps of the loop over the provided entries. -/
theorem entry_step {u : UserRule F} {p : Matrix × MatrixDependency F} {g g' : StaticScheduler}
    (h : (do
      let pNode ← tx.lookupNode p.1 p.2.region
      let g ← tx.collectDepends u pNode g
      tx.collectOutputs u p.1 pNode g) = some g') :
    ∃ pNode g₁, tx.lookupNode p.1 p.2.region = some pNode ∧
      tx.collectDepends u pNode g = some g₁ ∧ tx.collectOutputs u p.1 pNode g₁ = some g' := by
  obtain ⟨pNode, hl, h⟩ := Option.bind_eq_some_iff.mp h
  obtain ⟨g₁, h₁, h₂⟩ := Option.bind_eq_some_iff.mp h
  exact ⟨pNode, g₁, hl, h₁, h₂⟩

theorem adds_collectUserRule {u : UserRule F} (hu : u ∈ userRulesOf tx.rules)
    {g g' : StaticScheduler} (h : tx.collectUserRule u g = some g') : Adds tx g g' := by
  have hloop := foldlM_option_rest
    (P := fun rest x => (∀ p ∈ rest, p ∈ u.provides.entries) ∧ Adds tx g x)
    (f := fun g (p : Matrix × MatrixDependency F) => do
      let pNode ← tx.lookupNode p.1 p.2.region
      let g ← tx.collectDepends u pNode g
      tx.collectOutputs u p.1 pNode g) (by
      rintro p rest x x' ⟨hrest, hx⟩ hstep
      obtain ⟨pNode, x₁, hl, h₁, h₂⟩ := entry_step hstep
      have hm : p.1 ∈ u.provides :=
        OrderedMap.mem_iff.mpr ⟨p.2, OrderedMap.mem_entries.mp (hrest p List.mem_cons_self)⟩
      exact ⟨fun q hq => hrest q (List.mem_cons_of_mem _ hq),
        hx.trans (adds_entry hu hm (fun a ha => lookupNode_nodes hl ha) h₁ h₂)⟩)
    u.provides.entries g g' ⟨fun p hp => hp, Adds.refl⟩ h
  exact hloop.2

/-- **A RULE RECORDS ITS DEPENDENCIES**: an edge from a node of what it writes to a node of what
    it reads, if the regions allow it. -/
theorem recorded_collectUserRule {u : UserRule F} (hu : u ∈ userRulesOf tx.rules)
    {wm rm : Matrix} {prov dep : MatrixDependency F} (hprov : u.provides.find wm = some prov)
    (hdep : u.depends.find rm = some dep) {a b : Node}
    (ha : ∀ pNode, tx.lookupNode wm prov.region = some pNode → a ∈ pNode)
    (hb : ∀ dNode, tx.lookupNode rm dep.region = some dNode → b ∈ dNode)
    (hpossible : dependencyPossible M (tx.region a) (tx.region b) dep.direction = true)
    {g g' : StaticScheduler} (h : tx.collectUserRule u g = some g') :
    Recorded g' a b u.id dep.direction := by
  have hloop := foldlM_option_rest
    (P := fun rest x => (∀ p ∈ rest, p ∈ u.provides.entries) ∧
      ((wm, prov) ∈ rest ∨ Recorded x a b u.id dep.direction))
    (f := fun g (p : Matrix × MatrixDependency F) => do
      let pNode ← tx.lookupNode p.1 p.2.region
      let g ← tx.collectDepends u pNode g
      tx.collectOutputs u p.1 pNode g) (by
      rintro p rest x x' ⟨hrest, hx⟩ hstep
      obtain ⟨pNode, x₁, hl, h₁, h₂⟩ := entry_step hstep
      have hm : p.1 ∈ u.provides :=
        OrderedMap.mem_iff.mpr ⟨p.2, OrderedMap.mem_entries.mp (hrest p List.mem_cons_self)⟩
      have hp : ∀ n ∈ pNode, n ∈ tx.matrixToNodes p.1 := fun n hn => lookupNode_nodes hl hn
      refine ⟨fun q hq => hrest q (List.mem_cons_of_mem _ hq), ?_⟩
      rcases hx with hx | hx
      · rcases List.mem_cons.mp hx with rfl | hx
        · right
          exact (adds_collectOutputs hu hm hp h₂).recorded
            (recorded_collectDepends hu hm hp hdep (ha pNode hl) hb hpossible h₁)
        · exact Or.inl hx
      · exact Or.inr ((adds_entry hu hm hp h₁ h₂).recorded hx))
    u.provides.entries g g' ⟨fun p hp => hp, Or.inl (OrderedMap.mem_entries.mpr hprov)⟩ h
  exact hloop.2.resolve_left List.not_mem_nil

mutual

/-- Collecting for a rule is collecting for the user rules that can run. -/
theorem collectRule_eq : ∀ (r : RuleInterface F) (g : StaticScheduler),
    tx.collectRule r g = r.userRules.foldlM (fun g u => tx.collectUserRule u g) g
  | .user u, g => by
      rw [collectRule, RuleInterface.userRules, List.foldlM_cons]
      cases tx.collectUserRule u g <;> rfl
  | .wrapper _ r, g => by
      rw [collectRule, RuleInterface.userRules]
      exact collectRule_eq r g
  | .whereExpansion _ rules, g => by
      rw [collectRule, RuleInterface.userRules]
      exact collectRules_eq rules g

theorem collectRules_eq : ∀ (rules : List (RuleInterface F)) (g : StaticScheduler),
    tx.collectRules rules g =
      (userRulesOf rules).foldlM (fun g u => tx.collectUserRule u g) g
  | [], g => by
      rw [collectRules, userRulesOf]
      rfl
  | r :: rest, g => by
      rw [collectRules, userRulesOf, List.foldlM_append, collectRule_eq r g]
      congr 1
      funext g
      exact collectRules_eq rest g

end

theorem adds_collectDependencies {g : StaticScheduler} (h : tx.collectDependencies = some g) :
    Adds tx tx.scheduler g := by
  rw [collectDependencies, collectRules_eq] at h
  have hloop := foldlM_option_rest
    (P := fun rest x => (∀ u ∈ rest, u ∈ userRulesOf tx.rules) ∧ Adds tx tx.scheduler x)
    (f := fun g u => tx.collectUserRule u g) (by
      rintro u rest x x' ⟨hrest, hx⟩ hstep
      exact ⟨fun q hq => hrest q (List.mem_cons_of_mem _ hq),
        hx.trans (adds_collectUserRule (hrest u List.mem_cons_self) hstep)⟩)
    (userRulesOf tx.rules) tx.scheduler g ⟨fun u hu => hu, Adds.refl⟩ h
  exact hloop.2

/-! ## Accesses -/

/-- How a cell that is read lies to the iteration point, in one dimension. -/
def relation (read point : Int) : DirectionT :=
  if read < point then D_LT else if read = point then D_EQ else D_GT

/-- A direction admits a cell that is read from an iteration point, in the dimensions below a
    bound. -/
def Admits (dir : DependencyDirection) (bound : Nat) (read point : Cell) : Prop :=
  ∀ d < bound, dir.mask d &&& relation (read d) (point d) ≠ 0

/-- **ONE EXECUTION OF A USER RULE**, at the given sizes: it writes a cell of one matrix and
    reads a cell of another.  The entries of the rule cover both, and the directions of what it
    depends on admit the cell it reads. -/
structure Access (tx : Transform M) (u : UserRule F) (s : S) (wm rm : Matrix) where
  point : Cell
  written : Cell
  read : Cell
  provide : MatrixDependency F
  depend : MatrixDependency F
  provides : u.provides.find wm = some provide
  depends : u.depends.find rm = some depend
  written_mem : provide.region.Contains M s written
  read_mem : depend.region.Contains M s read
  provide_dimensions : provide.region.dimensions = tx.numDimensions wm
  depend_dimensions : depend.region.dimensions = tx.numDimensions rm
  admits : Admits depend.direction depend.direction.size read point

/-- An access between cells of two nodes is recorded, if the regions of the nodes allow it. -/
theorem recorded_collectDependencies {u : UserRule F} (hu : u ∈ userRulesOf tx.rules) {s : S}
    {wm rm : Matrix} (acc : Access tx u s wm rm) {a b : Node}
    (ha : a ∈ tx.matrixToNodes wm) (hwritten : (tx.region a).Contains M s acc.written)
    (hb : b ∈ tx.matrixToNodes rm) (hread : (tx.region b).Contains M s acc.read)
    (hpossible :
      dependencyPossible M (tx.region a) (tx.region b) acc.depend.direction = true)
    {g : StaticScheduler} (h : tx.collectDependencies = some g) :
    Recorded g a b u.id acc.depend.direction := by
  rw [collectDependencies, collectRules_eq] at h
  have hloop := foldlM_option_rest
    (P := fun rest x => (∀ q ∈ rest, q ∈ userRulesOf tx.rules) ∧
      (u ∈ rest ∨ Recorded x a b u.id acc.depend.direction))
    (f := fun g u => tx.collectUserRule u g) (by
      rintro q rest x x' ⟨hrest, hx⟩ hstep
      refine ⟨fun q hq => hrest q (List.mem_cons_of_mem _ hq), ?_⟩
      rcases hx with hx | hx
      · rcases List.mem_cons.mp hx with rfl | hx
        · right
          exact recorded_collectUserRule hu acc.provides acc.depends
            (fun _ hl => mem_lookupNode acc.written_mem acc.provide_dimensions ha hwritten hl)
            (fun _ hl => mem_lookupNode acc.read_mem acc.depend_dimensions hb hread hl)
            hpossible hstep
        · exact Or.inl hx
      · exact Or.inr
          ((adds_collectUserRule (hrest q List.mem_cons_self) hstep).recorded hx))
    (userRulesOf tx.rules) tx.scheduler g ⟨fun q hq => hq, Or.inl hu⟩ h
  exact hloop.2.resolve_left List.not_mem_nil

/-- Directions that deny a cell on one side admit none there. -/
theorem not_admits_of_below {dir : DirectionT} {read point : Int} (hlt : read < point)
    (hdir : dir = D_GT ∨ dir = D_GE) : dir &&& relation read point = 0 := by
  rw [relation, if_pos hlt]
  rcases hdir with rfl | rfl <;> decide

theorem not_admits_of_above {dir : DirectionT} {read point : Int} (hlt : point < read)
    (hdir : dir = D_LT ∨ dir = D_LE) : dir &&& relation read point = 0 := by
  rw [relation, if_neg (by omega), if_neg (by omega)]
  rcases hdir with rfl | rfl <;> decide

/-- **AN ACCESS AT THE ITERATION POINT IS ALLOWED**: a rule that writes the cell of its iteration
    point is denied no dependency it has. -/
theorem dependencyPossible_of_point {u : UserRule F} {s : S} {wm rm : Matrix}
    (acc : Access tx u s wm rm) {a b : Node}
    (hwritten : (tx.region a).Contains M s acc.written)
    (hread : (tx.region b).Contains M s acc.read)
    (hsize : (tx.region b).dimensions ≤ acc.depend.direction.size)
    (hpoint : acc.written = acc.point) :
    dependencyPossible M (tx.region a) (tx.region b) acc.depend.direction = true := by
  rw [dependencyPossible, List.all_eq_true]
  rintro ⟨⟨ca, cb⟩, d⟩ hmem
  have hget := List.mem_zipIdx_iff_getElem?.mp hmem
  obtain ⟨hca, hcb⟩ := List.getElem?_zip_eq_some.mp hget
  obtain ⟨h1, h2⟩ := hwritten d ca hca
  obtain ⟨h3, h4⟩ := hread d cb hcb
  have hd : d < acc.depend.direction.size :=
    Nat.lt_of_lt_of_le (List.getElem?_eq_some_iff.mp hcb).1 hsize
  have hadmits := acc.admits d hd
  rw [hpoint] at h1 h2
  rw [dimensionPossible, Bool.and_eq_true, Bool.not_eq_true', Bool.not_eq_true',
    ← Bool.not_eq_true, ← Bool.not_eq_true, Bool.and_eq_true, Bool.and_eq_true, Bool.or_eq_true,
    Bool.or_eq_true, decide_eq_true_eq, decide_eq_true_eq, decide_eq_true_eq, decide_eq_true_eq]
  constructor
  · rintro ⟨hdir, hcmp⟩
    have hge : M.eval cb.2 s ≤ M.eval ca.1 s := MaximaWrapper.holds_of_pessimistic hcmp s
    exact hadmits (not_admits_of_below (by omega) hdir)
  · rintro ⟨hdir, hcmp⟩
    have hge : M.eval ca.2 s ≤ M.eval cb.1 s := MaximaWrapper.holds_of_pessimistic hcmp s
    exact hadmits (not_admits_of_above (by omega) hdir)

/-! ## The collected graph -/

omit [DecidableEq F] in
/-- **THE COLLECTED GRAPH IS WELL FORMED.** -/
theorem Collected.wellFormed {g : StaticScheduler} (h : Collected tx g) : g.WellFormed := by
  have hsource : ∀ n k, k ∈ g.directDependsOriginal n →
      ∃ u ∈ userRulesOf tx.rules, ∃ m ∈ u.provides, n ∈ tx.matrixToNodes m := by
    intro n k hk
    obtain ⟨v, hv⟩ := OrderedMap.mem_iff.mp hk
    exact (h.edge n k v hv).2.2.2
  constructor
  case nodup =>
    rw [h.nodes]
    exact tx.nodup
  case source =>
    intro n k hk
    obtain ⟨u, _, m, _, hn⟩ := hsource n k hk
    rw [h.nodes]
    exact tx.mem_allNodes m n hn
  case target =>
    intro n k hk
    obtain ⟨v, hv⟩ := OrderedMap.mem_iff.mp hk
    rw [h.nodes]
    exact (h.edge n k v hv).1
  case ruled => exact fun n k v hv => (h.edge n k v hv).2.1
  case inputs =>
    intro n hn
    rw [h.inputs] at hn
    obtain ⟨hmem, hnone⟩ := tx.inputs n hn
    rw [h.nodes]
    refine ⟨hmem, ?_⟩
    intro k hk
    obtain ⟨u, hu, m, hm, hnm⟩ := hsource n k hk
    exact hnone u hu m hm hnm
  case intermediates =>
    intro n hn
    rw [h.intermediates] at hn
    rw [h.nodes]
    exact tx.intermediates n hn
  case outputs =>
    intro n hn
    rw [h.outputs] at hn
    rw [h.nodes, h.marks]
    exact tx.outputs n hn

/-! ## Directions -/

/-- A larger direction admits what a smaller one admits. -/
theorem Admits.mono {dir dir' : DependencyDirection} {bound : Nat} {read point : Cell}
    (h : Admits dir bound read point) (hle : dir ≤ dir') : Admits dir' bound read point := by
  intro d hd heq
  apply h d hd
  have hmask := DependencyDirection.mask_or_of_le hle d
  rw [← hmask, BitVec.and_or_distrib_right] at heq
  have hzero : dir.mask d &&& relation (read d) (point d) = 0 :=
    (BitVec.or_eq_zero_iff.mp heq).1
  exact hzero

theorem relation_not_multioutput (read point : Int) :
    ~~~ D_MULTIOUTPUT &&& relation read point = relation read point := by
  rw [relation]
  split
  · decide
  · split <;> decide

/-- Dropping the multi output mark changes no direction. -/
theorem Admits.removeMultioutput {dir : DependencyDirection} {bound : Nat} {read point : Cell}
    (h : Admits dir bound read point) : Admits dir.removeMultioutput bound read point := by
  intro d hd
  have hmask : dir.removeMultioutput.mask d = dir.mask d &&& ~~~ D_MULTIOUTPUT := by
    rw [DependencyDirection.removeMultioutput, DependencyDirection.mask, DependencyDirection.mask,
      List.getD_eq_getElem?_getD, List.getD_eq_getElem?_getD, List.getElem?_map]
    cases dir.directionMask[d]? <;> rfl
  rw [hmask, BitVec.and_assoc, relation_not_multioutput]
  exact h d hd

theorem Admits.trim {dir : DependencyDirection} {bound : Nat} {read point : Cell}
    (h : Admits dir bound read point) (g : StaticScheduler) (choice : Option Rule) :
    Admits (g.trimDependency choice dir) bound read point := by
  rw [StaticScheduler.trimDependency]
  split
  · split
    · exact h.removeMultioutput
    · exact h
  · exact h

/-! ## Choosing rules -/

section Chosen

variable {g : StaticScheduler} {choice : RuleChoiceAssignment}
  {R I : Node → ScheduleDependencies} {n : Node}

/-- A rule that an edge of the node names selects the edges that name it. -/
theorem directDepends_of_selected
    (hR : R n = g.chosenDepends (choice n) n) (h : g.ChoiceHasDepends (choice n) n) :
    (g.withDepends R I).directDepends n = g.chosenDepends (choice n) n := by
  obtain ⟨k, w, hw, hcontains⟩ := h
  have hk : k ∈ R n := by
    rw [hR]
    exact OrderedMap.mem_iff.mpr
      ⟨_, StaticScheduler.find_chosenDepends.mpr ⟨w, hw, hcontains, rfl⟩⟩
  rw [StaticScheduler.directDepends]
  have hne : ¬ ((g.withDepends R I).directDependsRemapped n).entries = [] :=
    fun hempty => OrderedMap.entries_eq_nil.mp hempty k hk
  rw [if_neg hne]
  exact hR

/-- A rule that no edge of the node names selects nothing. -/
theorem remapped_of_not_selected (hR : R n = g.chosenDepends (choice n) n)
    (h : ¬ g.ChoiceHasDepends (choice n) n) (k : Node) : k ∉ R n := by
  rw [hR]
  intro hk
  obtain ⟨v, hv⟩ := OrderedMap.mem_iff.mp hk
  obtain ⟨w, hw, hcontains, _⟩ := StaticScheduler.find_chosenDepends.mp hv
  exact h ⟨k, w, hw, hcontains⟩

/-- An empty selection stands for every original edge. -/
theorem directDepends_of_not_selected (hR : R n = g.chosenDepends (choice n) n)
    (h : ¬ g.ChoiceHasDepends (choice n) n) :
    (g.withDepends R I).directDepends n = g.directDependsOriginal n := by
  have hempty : ((g.withDepends R I).directDependsRemapped n).entries = [] :=
    OrderedMap.entries_eq_nil.mpr (remapped_of_not_selected hR h)
  rw [StaticScheduler.directDepends, if_pos hempty]
  rfl

end Chosen

/-- The dependency of one node on another admits an access. -/
def HasDependency (g : StaticScheduler) (a b : Node) {u : UserRule F} {s : S}
    {wm rm : Matrix} (acc : Access tx u s wm rm) : Prop :=
  ∃ v, (g.directDepends a).find b = some v ∧
    Admits v.direction acc.depend.direction.size acc.read acc.point

omit [DecidableEq F] in
/-- A user rule that runs when a rule is chosen is a rule of the transform. -/
theorem mem_userRulesOf {rules : List (RuleInterface F)} {r : RuleInterface F} (hr : r ∈ rules)
    {u : UserRule F} (hu : u ∈ r.userRules) : u ∈ userRulesOf rules := by
  induction rules with
  | nil => exact absurd hr List.not_mem_nil
  | cons q rest ih =>
      rw [userRulesOf, List.mem_append]
      rcases List.mem_cons.mp hr with rfl | hr
      · exact Or.inl hu
      · exact Or.inr (ih hr)

omit [DecidableEq F] in
/-- **CHOOSING A RULE KEEPS THE EDGES OF ITS ACCESSES**: a user rule selects the edges it
    recorded, and a wrapper, which records none, selects nothing. -/
theorem hasDependency_of_recorded {g : StaticScheduler} (hg : Collected tx g)
    {choice : RuleChoiceAssignment} {R I : Node → ScheduleDependencies} {a b : Node}
    (hR : R a = g.chosenDepends (choice a) a) {r : RuleInterface F} (hr : r ∈ tx.rules)
    (hchoice : choice a = some r.id) {u : UserRule F} (hu : u ∈ r.userRules) {s : S}
    {wm rm : Matrix} (acc : Access tx u s wm rm)
    (hrec : Recorded g a b u.id acc.depend.direction) :
    HasDependency (g.withDepends R I) a b acc := by
  obtain ⟨w, hw, huw, hle⟩ := hrec
  by_cases hsel : g.ChoiceHasDepends (choice a) a
  · -- an edge names the chosen rule, so it is a user rule, the only one that can run
    obtain ⟨k, w', hw', hcontains⟩ := hsel
    rw [hchoice] at hcontains
    have hmem : r.id ∈ w'.rules := by simpa [DependencyInformation.contains] using hcontains
    obtain ⟨u', hu', hid⟩ := (hg.edge a k w' hw').2.2.1 r.id hmem
    have hreq := tx.ids r hr u' hu' hid.symm
    rw [hreq, RuleInterface.userRules, List.mem_singleton] at hu
    have hcontains' : w.contains (choice a) = true := by
      rw [hchoice, hreq, ← hu]
      exact decide_eq_true huw
    refine ⟨⟨w.rules, g.trimDependency (choice a) w.direction⟩, ?_, ?_⟩
    · rw [directDepends_of_selected hR ⟨b, w, hw, hcontains'⟩]
      exact StaticScheduler.find_chosenDepends.mpr ⟨w, hw, hcontains', rfl⟩
    · exact (acc.admits.mono hle).trim g (choice a)
  · refine ⟨w, ?_, acc.admits.mono hle⟩
    rw [directDepends_of_not_selected hR hsel]
    exact hw

/-! ## The merge -/

/-- What the merge asks of an edge from `a` to `b`: it is inside a component, or the rule chosen
    for `a` selected edges, or no rule chosen in the component of `a` did, or one that did has
    a selected edge into the component of `b`. -/
def SurvivesMerge (g : StaticScheduler) (choice : RuleChoiceAssignment)
    (component : Node → ChoiceDepGraphNodeSet) (a b : Node) : Prop :=
  b ∈ component a ∨ g.ChoiceHasDepends (choice a) a ∨
    (∀ x ∈ component a, ¬ g.ChoiceHasDepends (choice x) x) ∨
    ∃ x ∈ component a, ∃ k w, (g.directDependsOriginal x).find k = some w ∧
      w.contains (choice x) = true ∧ k ∈ component b

/-- **THE MERGE KEEPS AN EDGE IN EXACTLY THESE CASES.** -/
theorem merged_edge_iff {g : StaticScheduler} (hg : g.WellFormed)
    {choice : RuleChoiceAssignment} {R I : Node → ScheduleDependencies}
    (hR : ∀ n ∈ g.allNodes, R n = g.chosenDepends (choice n) n)
    (hclosed : (g.withDepends R I).Closed) {alloc : Nat → Node}
    (hinj : Function.Injective alloc) (hfresh : ∀ j, alloc j ∉ g.allNodes) {a b : Node}
    (hab : b ∈ (g.withDepends R I).directDepends a) (ha : a ∈ g.allNodes)
    {s : StaticScheduler.Coscheduling}
    {g' : StaticScheduler} (hs : (g.withDepends R I).coscheduleNodes alloc = .ok s)
    (hmerge : (g.withDepends R I).mergeCoscheduledNodes choice alloc = .ok g') :
    (s.container a = s.container b ∨ s.container b ∈ g'.directDepends (s.container a)) ↔
      SurvivesMerge g choice (g.withDepends R I).getStronglyConnectedComponent a b := by
  obtain ⟨hinv, hdone⟩ := StaticScheduler.coscheduleNodes_spec hclosed hinj hfresh hs
  have hb : b ∈ g.allNodes := hclosed.graph.target a ha b hab
  have hcomp : ∀ x ∈ (g.withDepends R I).getStronglyConnectedComponent a, x ∈ g.allNodes :=
    fun x hx => StaticScheduler.component_nodes hclosed ha hx
  have hself : a ∈ (g.withDepends R I).getStronglyConnectedComponent a :=
    StaticScheduler.component_self hclosed ha
  have hselected : ∀ x ∈ g.allNodes, ∀ k, k ∈ R x ↔
      ∃ w, (g.directDependsOriginal x).find k = some w ∧ w.contains (choice x) = true := by
    intro x hx k
    rw [hR x hx]
    constructor
    · intro hk
      obtain ⟨v, hv⟩ := OrderedMap.mem_iff.mp hk
      obtain ⟨w, hw, hcontains, _⟩ := StaticScheduler.find_chosenDepends.mp hv
      exact ⟨w, hw, hcontains⟩
    · rintro ⟨w, hw, hcontains⟩
      exact OrderedMap.mem_iff.mpr
        ⟨_, StaticScheduler.find_chosenDepends.mpr ⟨w, hw, hcontains, rfl⟩⟩
  have hbcontainer : ∀ k ∈ g.allNodes, s.container k = s.container b ↔
      k ∈ (g.withDepends R I).getStronglyConnectedComponent b := by
    intro k hk
    rw [eq_comm]
    exact hinv.container_eq_iff hclosed hfresh hb hk (hdone b hb)
  rw [SurvivesMerge, hinv.container_eq_iff hclosed hfresh ha hb (hdone a ha)]
  apply or_congr_right
  rw [StaticScheduler.mem_directDepends_merged hclosed hinj hfresh hs hmerge
    (hinv.container_mem ha)]
  simp only [hinv.mem_directDepends_container hclosed ha (hdone a ha)]
  constructor
  · rintro ⟨j, ⟨x, hx, hj⟩ | ⟨hnone, _⟩, heq⟩
    · -- a member selected an edge into the component of `b`
      obtain ⟨w, hw, hcontains⟩ := (hselected x (hcomp x hx) j).mp hj
      have hjn : j ∈ g.allNodes := hg.target x j (OrderedMap.mem_iff.mpr ⟨w, hw⟩)
      exact Or.inr (Or.inr ⟨x, hx, j, w, hw, hcontains, (hbcontainer j hjn).mp heq⟩)
    · refine Or.inr (Or.inl ?_)
      rintro x hx ⟨k, w, hw, hcontains⟩
      exact hnone x hx k ((hselected x (hcomp x hx) k).mpr ⟨w, hw, hcontains⟩)
  · rintro (hsel | hnone | ⟨x, hx, k, w, hw, hcontains, hk⟩)
    · refine ⟨b, Or.inl ⟨a, hself, ?_⟩, rfl⟩
      rw [directDepends_of_selected (hR a ha) hsel, ← hR a ha] at hab
      exact hab
    · refine ⟨b, Or.inr ⟨?_, a, hself, ?_⟩, rfl⟩
      · intro x hx j hj
        exact remapped_of_not_selected (hR x (hcomp x hx)) (hnone x hx) j hj
      · rw [directDepends_of_not_selected (hR a ha) (hnone a hself)] at hab
        exact hab
    · have hkn : k ∈ g.allNodes := hg.target x k (OrderedMap.mem_iff.mpr ⟨w, hw⟩)
      exact ⟨k, Or.inl ⟨x, hx, (hselected x (hcomp x hx) k).mpr ⟨w, hw, hcontains⟩⟩,
        (hbcontainer k hkn).mpr hk⟩

/-- **NO DATA DEPENDENCY IS LOST, UP TO THE MERGE; AND WHEN THE MERGE KEEPS IT.**  For an access
    of a rule that runs when a rule is chosen for `a`, from a cell of `b`, that the regions of
    the nodes allow: the chosen graph has a dependency of `a` on `b` whose direction admits it,
    and the merged graph has one between their containers exactly when the edge survives. -/
theorem dependency_kept_iff {g₁ : StaticScheduler} (hcollect : tx.collectDependencies = some g₁)
    (choice : RuleChoiceAssignment) {r : RuleInterface F} (hr : r ∈ tx.rules)
    {u : UserRule F} (hu : u ∈ r.userRules) {s : S} {wm rm : Matrix}
    (acc : Access tx u s wm rm) {a b : Node} (hchoice : choice a = some r.id)
    (ha : a ∈ tx.matrixToNodes wm) (hwritten : (tx.region a).Contains M s acc.written)
    (hb : b ∈ tx.matrixToNodes rm) (hread : (tx.region b).Contains M s acc.read)
    (hpossible :
      dependencyPossible M (tx.region a) (tx.region b) acc.depend.direction = true) :
    ∃ fuel₀ g₂, (∀ fuel, fuel₀ ≤ fuel → g₁.chooseRules choice fuel = .ok g₂) ∧
      HasDependency g₂ a b acc ∧
      ∀ alloc, Function.Injective alloc → (∀ j, alloc j ∉ g₁.allNodes) →
        ∀ t g₃, g₂.coscheduleNodes alloc = .ok t →
          g₂.mergeCoscheduledNodes choice alloc = .ok g₃ →
          ((t.container a = t.container b ∨
              t.container b ∈ g₃.directDepends (t.container a)) ↔
            SurvivesMerge g₁ choice g₂.getStronglyConnectedComponent a b) := by
  have hcollected := (adds_collectDependencies hcollect).collected (collected_init tx)
  have hwf := hcollected.wellFormed
  have humem := mem_userRulesOf hr hu
  have hrec := recorded_collectDependencies humem acc ha hwritten hb hread hpossible hcollect
  have han : a ∈ g₁.allNodes := by
    rw [hcollected.nodes]
    exact tx.mem_allNodes wm a ha
  obtain ⟨fuel₀, R, I, hrun, hR, hclosed⟩ := StaticScheduler.chooseRules_spec hwf choice
  have hdep : HasDependency (g₁.withDepends R I) a b acc :=
    hasDependency_of_recorded hcollected (hR a han) hr hchoice hu acc hrec
  refine ⟨fuel₀, g₁.withDepends R I, hrun, hdep, ?_⟩
  intro alloc hinj hfresh t g₃ ht hmerge
  obtain ⟨v, hv, _⟩ := hdep
  exact merged_edge_iff hwf hR hclosed hinj hfresh (OrderedMap.mem_iff.mpr ⟨v, hv⟩) han ht hmerge

end Transform

/-! ## A component of a duplicated rule and a user rule -/

/-- `lo ≤ hi` holds for every large size, decided at the smallest one. -/
def knownLe (lo hi : Nat × Int) : TryCompareResult :=
  if lo.1 ≤ hi.1 ∧ lo.1 * 1001 + lo.2 ≤ hi.1 * 1001 + hi.2 then .YES
  else if hi.1 ≤ lo.1 ∧ hi.1 * 1001 + hi.2 < lo.1 * 1001 + lo.2 then .NO
  else .UNKNOWN

theorem linear_le {lo hi : Nat × Int} {n : Int} (hn : 1000 < n) (hk : lo.1 ≤ hi.1) :
    (hi.1 * 1001 + hi.2) - (lo.1 * 1001 + lo.2) ≤ (hi.1 * n + hi.2) - (lo.1 * n + lo.2) := by
  have hk' : (0 : Int) ≤ (hi.1 : Int) - lo.1 := by omega
  have hn' : (0 : Int) ≤ n - 1001 := by omega
  have hprod := Int.mul_nonneg hk' hn'
  rw [Int.sub_mul, Int.mul_sub, Int.mul_sub] at hprod
  omega

theorem le_of_known {lo hi : Nat × Int} {n : Int} (hn : 1000 < n)
    (h : knownLe lo hi = .YES) : lo.1 * n + lo.2 ≤ hi.1 * n + hi.2 := by
  rw [knownLe] at h
  split at h
  · rename_i hyes
    have := linear_le hn hyes.1
    omega
  · split at h <;> cases h

theorem lt_of_known {lo hi : Nat × Int} {n : Int} (hn : 1000 < n)
    (h : knownLe lo hi = .NO) : hi.1 * n + hi.2 < lo.1 * n + lo.2 := by
  rw [knownLe] at h
  split at h
  · cases h
  · split at h
    · rename_i hno
      have := linear_le hn hno.1
      omega
    · cases h

/-- Formulas `k * n + c` over the size of the matrices, which the compiler assumes to be large. -/
def linear : MaximaWrapper (Nat × Int) {n : Int // 1000 < n} where
  eval f n := f.1 * n.1 + f.2
  is a op b :=
    match op with
    | .le => knownLe a b
    | .ge => knownLe b a
    | _ => .UNKNOWN
  yes := by
    intro a op b h n
    cases op with
    | le => exact le_of_known n.2 h
    | ge => exact le_of_known n.2 h
    | lt => cases h
    | eq => cases h
  no := by
    intro a op b h n
    cases op with
    | le => exact Int.not_le.mpr (lt_of_known n.2 h)
    | ge => exact Int.not_le.mpr (lt_of_known n.2 h)
    | lt => cases h
    | eq => cases h

/-- All of a matrix. -/
def whole : SimpleRegion (Nat × Int) := ⟨[((0, 0), (1, 0))]⟩

/-- What a rule reads that reads everything below its iteration point. -/
def below : SimpleRegion (Nat × Int) := ⟨[((0, 0), (1, -1))]⟩

/-- `to (A.cell(i)) from (B.region(0, i), X.cell(i))`, the matrices being 0, 1 and 2. -/
def ruleA : UserRule (Nat × Int) where
  id := 0
  dimensions := 1
  provides := .ofList [(0, ⟨⟨[D_EQ]⟩, whole⟩)]
  depends := .ofList [(1, ⟨⟨[D_LT]⟩, below⟩), (2, ⟨⟨[D_EQ]⟩, whole⟩)]

/-- `to (B.cell(i)) from (A.region(0, i))`. -/
def ruleB : UserRule (Nat × Int) where
  id := 1
  dimensions := 1
  provides := .ofList [(1, ⟨⟨[D_EQ]⟩, whole⟩)]
  depends := .ofList [(0, ⟨⟨[D_LT]⟩, below⟩)]

/-- `to (X.cell(i)) from ()`. -/
def ruleX : UserRule (Nat × Int) where
  id := 2
  dimensions := 1
  provides := .ofList [(2, ⟨⟨[D_EQ]⟩, whole⟩)]
  depends := ∅

/-- The transform of these rules, with a duplicate of the first; node 2 is `A`, node 1 is `B`
    and node 0 is `X`. -/
def duplicated : Transform linear where
  numDimensions := fun _ => 1
  matrixToNodes
    | 0 => [2]
    | 1 => [1]
    | 2 => [0]
    | _ => []
  region := fun _ => whole
  rules := [.user ruleA, .user ruleB, .user ruleX, .wrapper 3 (.user ruleA)]
  scheduler :=
    { (default : StaticScheduler) with
      allNodes := [2, 1, 0]
      ruleKind := fun r => if r ≤ 2 then .user 1 else .synthetic
      isOutput := fun n => n = 2
      choices := fun n => if n = 2 then [0, 3] else [2 - n]
      minCoord := fun _ _ => "0"
      maxCoord := fun _ _ => "n"
      intermediatesOriginal := .ofList [(0, ()), (1, ())]
      outputsOriginal := .ofList [(2, ())] }
  nodup := by decide
  mem_allNodes := by
    rintro (_ | _ | _ | m) n hn
    · rw [List.mem_singleton.mp hn]
      decide
    · rw [List.mem_singleton.mp hn]
      decide
    · rw [List.mem_singleton.mp hn]
      decide
    · exact absurd hn List.not_mem_nil
  dimensions_region := fun m n hn => rfl
  disjoint := by
    rintro (_ | _ | _ | m) a ha b hb s cell _ _
    · rw [List.mem_singleton.mp ha, List.mem_singleton.mp hb]
    · rw [List.mem_singleton.mp ha, List.mem_singleton.mp hb]
    · rw [List.mem_singleton.mp ha, List.mem_singleton.mp hb]
    · exact absurd ha List.not_mem_nil
  no_depends := fun n => rfl
  inputs := fun n hn => absurd hn (OrderedMap.not_mem_empty n)
  intermediates := by
    intro n hn
    have hkeys : n ∈ [0, 1] := OrderedMap.mem_keys.mpr hn
    have hall : ∀ x ∈ [0, 1], x ∈ [2, 1, 0] := by decide
    exact hall n hkeys
  outputs := by
    intro n hn
    have hkeys : n ∈ [2] := OrderedMap.mem_keys.mpr hn
    rw [List.mem_singleton.mp hkeys]
    exact ⟨by decide, rfl⟩
  ids := by
    intro r hr u hu hid
    simp only [userRulesOf, RuleInterface.userRules, List.append_nil, List.cons_append,
      List.nil_append, List.mem_cons, List.not_mem_nil, or_false] at hr hu
    rcases hr with rfl | rfl | rfl | rfl <;> rcases hu with rfl | rfl | rfl | rfl <;>
      first | rfl | exact absurd hid (by decide)

/-- The duplicate is chosen for `A`. -/
def duplicateChosen : RuleChoiceAssignment := fun n => if n = 2 then some 3 else some (2 - n)

theorem whole_contains (n : {n : Int // 1000 < n}) : whole.Contains linear n (fun _ => 5) := by
  intro d c hc
  cases d with
  | zero =>
      cases hc
      have hlo : linear.eval (0, 0) n = 0 * n.1 + 0 := rfl
      have hhi : linear.eval (1, 0) n = 1 * n.1 + 0 := rfl
      have := n.2
      simp only [hlo, hhi]
      omega
  | succ d => cases hc

/-- The first rule writes cell 5 of `A` while it reads cell 5 of `X`. -/
def readsX : Transform.Access duplicated ruleA ⟨2000, by decide⟩ 0 2 where
  point := fun _ => 5
  written := fun _ => 5
  read := fun _ => 5
  provide := ⟨⟨[D_EQ]⟩, whole⟩
  depend := ⟨⟨[D_EQ]⟩, whole⟩
  provides := rfl
  depends := rfl
  written_mem := whole_contains _
  read_mem := whole_contains _
  provide_dimensions := rfl
  depend_dimensions := rfl
  admits := by
    intro d hd
    rw [Nat.lt_one_iff.mp hd]
    decide

/-- Choosing the rule itself keeps the dependency through the merge. -/
theorem dependency_kept_ruleA :
    ∃ g₁, duplicated.collectDependencies = some g₁ ∧
      ∃ fuel₀ g₂, (∀ fuel, fuel₀ ≤ fuel →
          g₁.chooseRules (fun n => some (2 - n)) fuel = .ok g₂) ∧
        Transform.HasDependency g₂ 2 0 readsX := by
  obtain ⟨g₁, hcollect⟩ : ∃ g₁, duplicated.collectDependencies = some g₁ :=
    Option.isSome_iff_exists.mp (by decide +kernel)
  obtain ⟨fuel₀, g₂, hrun, hdep, _⟩ := Transform.dependency_kept_iff hcollect
    (fun n => some (2 - n)) (r := .user ruleA) List.mem_cons_self (u := ruleA)
    List.mem_cons_self readsX rfl List.mem_cons_self (whole_contains _) List.mem_cons_self
    (whole_contains _) (by decide)
  exact ⟨g₁, hcollect, fuel₀, g₂, hrun, hdep⟩

/-- What is left of the dependency of `A` on `X` when the duplicate is chosen for `A`. -/
def mergedRun : Option (Node × Node × Bool) := do
  let g₁ ← duplicated.collectDependencies
  let g₂ ← (g₁.chooseRules duplicateChosen 10).toOption
  let t ← (g₂.coscheduleNodes (· + 3)).toOption
  let g₃ ← (g₂.mergeCoscheduledNodes duplicateChosen (· + 3)).toOption
  some (t.container 2, t.container 0, decide (t.container 0 ∈ g₃.directDepends (t.container 2)))

/-- **A DEPENDENCY IS LOST**: `A` and `B` are in one component, the duplicate chosen for `A`
    selects nothing and the rule chosen for `B` selects its edge to `A`, so the meta node of
    both has that edge alone, and does not depend on `X`. -/
theorem duplicate_loses_dependency :
    Nonempty (Transform.Access duplicated ruleA ⟨2000, by decide⟩ 0 2) ∧
      dependencyPossible linear whole whole readsX.depend.direction = true ∧
      ∃ g₁ g₂ t g₃, duplicated.collectDependencies = some g₁ ∧
        g₁.chooseRules duplicateChosen 10 = .ok g₂ ∧ g₂.coscheduleNodes (· + 3) = .ok t ∧
        g₂.mergeCoscheduledNodes duplicateChosen (· + 3) = .ok g₃ ∧
        ¬ (t.container 2 = t.container 0 ∨
          t.container 0 ∈ g₃.directDepends (t.container 2)) := by
  refine ⟨⟨readsX⟩, by decide, ?_⟩
  have hrun : mergedRun = some (3, 0, false) := by decide +kernel
  rw [mergedRun] at hrun
  obtain ⟨g₁, h₁, hrun⟩ := Option.bind_eq_some_iff.mp hrun
  obtain ⟨g₂, h₂, hrun⟩ := Option.bind_eq_some_iff.mp hrun
  obtain ⟨t, h₃, hrun⟩ := Option.bind_eq_some_iff.mp hrun
  obtain ⟨g₃, h₄, hrun⟩ := Option.bind_eq_some_iff.mp hrun
  obtain ⟨ha, hb, hmem⟩ : t.container 2 = 3 ∧ t.container 0 = 0 ∧
      decide (t.container 0 ∈ g₃.directDepends (t.container 2)) = false := by
    simpa using hrun
  refine ⟨g₁, g₂, t, g₃, h₁, toOption_eq_some h₂, toOption_eq_some h₃, toOption_eq_some h₄, ?_⟩
  rintro (heq | hin)
  · rw [ha, hb] at heq
    cases heq
  · exact absurd hin (of_decide_eq_false hmem)

end PbDataDependency
