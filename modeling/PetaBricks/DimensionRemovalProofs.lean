import PetaBricks.UselessDimensionProofs

/-!
# The removal of a dimension — which regions lose it, and how often

A removal takes the dimension off the matrix, then goes through the nodes, and at each through
its choices.  The state it leaves is told by three sets of matrices: those that lost their last
dimension, and for each node and each rule those whose regions there did.  A visit that would
take the dimension off a second time is out of range, so a removal that ends has visited every
rule with a region of the matrix at most once.
-/

namespace PbUselessDimension

open PbOrderedMap PbMaxima PbDataDependency PbOutcome
open PbScheduler (Node Rule)

/-! ## Reduced states -/

/-- The region without its last dimension, which is kept aside. -/
def Region.lose {F : Type} (q : Region F) : Region F :=
  { q with
    coords := q.coords.dropLast
    removedDimensions := q.removedDimensions ++ q.coords.getLast?.toList }

/-- The region when some matrices have lost their last dimension. -/
def Region.reduce {F : Type} (removed : Matrix → Bool) (q : Region F) : Region F :=
  if removed q.matrix then q.lose else q

@[simp] theorem Region.reduce_matrix {F : Type} (removed : Matrix → Bool) (q : Region F) :
    (q.reduce removed).matrix = q.matrix := by
  rw [Region.reduce]
  split <;> rfl

/-- A region of another matrix does not tell. -/
theorem Region.reduce_congr {F : Type} {R R' : Matrix → Bool} {q : Region F}
    (h : R q.matrix = R' q.matrix) : q.reduce R = q.reduce R' := by
  rw [Region.reduce, Region.reduce, h]

/-- One more matrix. -/
def also (removed : Matrix → Bool) (m : Matrix) : Matrix → Bool :=
  fun m' => decide (m' = m) || removed m'

theorem also_self (removed : Matrix → Bool) (m : Matrix) : also removed m m = true := by
  simp [also]

theorem also_other (removed : Matrix → Bool) {m m' : Matrix} (h : m' ≠ m) :
    also removed m m' = removed m' := by
  simp [also, h]

/-- One more matrix for those that have been visited. -/
def mark (visited : List Nat) (removed : Nat → Matrix → Bool) (m : Matrix) :
    Nat → Matrix → Bool :=
  fun k => if k ∈ visited then also (removed k) m else removed k

theorem mark_nil (removed : Nat → Matrix → Bool) (m : Matrix) : mark [] removed m = removed := by
  funext k
  exact if_neg List.not_mem_nil

/-- Visiting once more. -/
theorem mark_visit {visited : List Nat} {k : Nat} (removed : Nat → Matrix → Bool) (m : Matrix) :
    Function.update (mark visited removed m) k (also (mark visited removed m k) m) =
      mark (visited ++ [k]) removed m := by
  funext j m'
  by_cases hj : j = k
  · subst hj
    rw [Function.update_self, mark, mark, if_pos (List.mem_append_right _ List.mem_cons_self)]
    split
    · simp [also]
    · rfl
  · rw [Function.update_of_ne hj, mark, mark]
    have hiff : j ∈ visited ++ [k] ↔ j ∈ visited := by simp [hj]
    rw [if_congr hiff rfl rfl]

theorem mark_self {visited : List Nat} {removed : Nat → Matrix → Bool} {k : Nat} {m : Matrix}
    (h : removed k m = false) : mark visited removed m k m = true ↔ k ∈ visited := by
  rw [mark]
  by_cases hk : k ∈ visited
  · rw [if_pos hk]
    exact iff_of_true (also_self _ _) hk
  · rw [if_neg hk, h]
    exact iff_of_false Bool.noConfusion hk

namespace Transform

variable {F S : Type} [DecidableEq F] {M : MaximaWrapper F S} {fm : Formulas M}

/-- The state when the matrices `sizes`, at each node the regions of the matrices `nodes` and at
    each rule the regions of the matrices `rules` have lost their last dimension. -/
structure IsReduced (tx : Transform M fm) (sizes : Matrix → Bool) (nodes : Node → Matrix → Bool)
    (rules : Rule → Matrix → Bool) (st : StaticScheduler F) : Prop where
  size : ∀ m, st.size m =
    if sizes m then (tx.initial.size m).dropLast else tx.initial.size m
  region : ∀ n, st.region n = (tx.initial.region n).reduce (nodes n)
  toRegions : ∀ r, st.toRegions r = (tx.initial.toRegions r).map (Region.reduce (rules r))
  fromRegions : ∀ r, st.fromRegions r = (tx.initial.fromRegions r).map (Region.reduce (rules r))

/-- A rule with a region of a matrix. -/
def Uses (tx : Transform M fm) (r : Rule) (m : Matrix) : Prop :=
  ∃ q ∈ tx.initial.toRegions r ++ tx.initial.fromRegions r, q.matrix = m

variable {tx : Transform M fm} {sizes : Matrix → Bool} {nodes : Node → Matrix → Bool}
  {rules : Rule → Matrix → Bool} {st : StaticScheduler F} {m : Matrix} {d : Nat}

/-! ## Taking the dimension off regions -/

omit [DecidableEq F] in
theorem removeDimension_region_ends {R : Matrix → Bool} {q : Region F}
    (hq : q.coords.length = d + 1) :
    Ends ((q.reduce R).removeDimension d) (OutOfRangeIf (R q.matrix = true))
      (fun q' => q' = q.lose ∧ R q.matrix = false) := by
  rw [Region.removeDimension]
  cases hR : R q.matrix with
  | true =>
      have hlose : q.reduce R = q.lose := by rw [Region.reduce, if_pos hR]
      have hnone : q.lose.coords[d]? = none := by
        apply List.getElem?_eq_none
        rw [Region.lose, List.length_dropLast, hq]
        rfl
      rw [hlose, hnone]
      exact Ends.error (fun _ => rfl)
  | false =>
      have hsame : q.reduce R = q := by rw [Region.reduce, if_neg (by simp [hR])]
      have hd : d < q.coords.length := by omega
      rw [hsame, List.getElem?_eq_getElem hd]
      refine Ends.ok ⟨?_, rfl⟩
      have hlast : q.coords.getLast? = some q.coords[d] := by
        rw [List.getLast?_eq_getElem?, hq]
        exact List.getElem?_eq_getElem hd
      have herase : q.coords.eraseIdx d = q.coords.dropLast := by
        exact (List.dropLast_eq_eraseIdx hq.symm).symm
      rw [Region.lose, hlast, herase]
      rfl

omit [DecidableEq F] in
theorem removeDimensionFromRegionList_ends {R : Matrix → Bool} {list : List (Region F)}
    (hlist : ∀ q ∈ list, q.matrix = m → q.coords.length = d + 1) :
    Ends (removeDimensionFromRegionList (list.map (Region.reduce R)) m d)
      (OutOfRangeIf (R m = true ∧ ∃ q ∈ list, q.matrix = m))
      (fun list' => list' = list.map (Region.reduce (also R m)) ∧
        ((∃ q ∈ list, q.matrix = m) → R m = false)) := by
  have heach : ∀ q ∈ list, Ends
      (if (q.reduce R).matrix ≠ m then .ok (q.reduce R) else (q.reduce R).removeDimension d)
      (OutOfRangeIf (R m = true ∧ ∃ q ∈ list, q.matrix = m))
      (fun q' => q' = q.reduce (also R m) ∧ (q.matrix = m → R m = false)) := by
    intro q hq
    rw [Region.reduce_matrix]
    by_cases hm : q.matrix = m
    · rw [if_neg (not_not.mpr hm)]
      refine (removeDimension_region_ends (hlist q hq hm)).mono (OutOfRangeIf.imp ?_) ?_
      · intro hR
        exact ⟨hm ▸ hR, q, hq, hm⟩
      rintro q' ⟨rfl, hR⟩
      refine ⟨?_, fun _ => hm ▸ hR⟩
      rw [Region.reduce, hm, if_pos (also_self R m)]
    · rw [if_pos hm]
      exact Ends.ok ⟨Region.reduce_congr (also_other R hm).symm, fun h => absurd h hm⟩
  rw [removeDimensionFromRegionList, List.mapM_map]
  refine (Ends.mapM heach).mono (fun _ h => h) ?_
  intro list' hlist'
  constructor
  · exact eq_map_of_forall₂ hlist' (fun _ _ h => h.1)
  · rintro ⟨q, hq, hm⟩
    exact (forall_mem_iff_of_forall₂ (Q := fun _ => True)
      (P := fun q => q.matrix = m → R m = false) hlist'
      (fun _ _ h => iff_of_true trivial h.2)).mp (fun _ _ => trivial) q hq hm

/-! ## Visiting rules and nodes -/

omit [DecidableEq F] in
theorem IsReduced.updateRule (h : IsReduced tx sizes nodes rules st) (r : Rule)
    (R : Matrix → Bool) (definitions : Rule → List F) :
    IsReduced tx sizes nodes (Function.update rules r R)
      { st with
        toRegions := Function.update st.toRegions r
          ((tx.initial.toRegions r).map (Region.reduce R))
        fromRegions := Function.update st.fromRegions r
          ((tx.initial.fromRegions r).map (Region.reduce R))
        definitions := definitions } where
  size := h.size
  region := h.region
  toRegions := by
    intro k
    by_cases hk : k = r
    · subst hk
      simp only [Function.update_self]
    · simp only [Function.update_of_ne hk]
      exact h.toRegions k
  fromRegions := by
    intro k
    by_cases hk : k = r
    · subst hk
      simp only [Function.update_self]
    · simp only [Function.update_of_ne hk]
      exact h.fromRegions k

/-- A visit of a rule. -/
theorem removeDimensionFromMatrix_ends (h : IsReduced tx sizes nodes rules st)
    (hm : (tx.initial.size m).length = d + 1) (r : Rule) :
    Ends (tx.removeDimensionFromMatrix m d st r)
      (OutOfRangeIf (rules r m = true ∧ tx.Uses r m))
      (fun st' => IsReduced tx sizes nodes (Function.update rules r (also (rules r) m)) st' ∧
        (tx.Uses r m → rules r m = false)) := by
  rw [removeDimensionFromMatrix]
  by_cases huser : tx.isUserRule r = true
  · rw [if_pos huser, h.toRegions, h.fromRegions]
    refine Ends.bind ((removeDimensionFromRegionList_ends (d := d) ?_).mono
      (OutOfRangeIf.imp ?_) (fun _ h => h)) ?_
    · intro q hq hqm
      rw [tx.to_dimensions r q hq, hqm, hm]
    · rintro ⟨hR, q, hq, hqm⟩
      exact ⟨hR, q, List.mem_append_left _ hq, hqm⟩
    rintro toRegions ⟨rfl, hto⟩
    refine Ends.bind ((removeDimensionFromRegionList_ends (d := d) ?_).mono
      (OutOfRangeIf.imp ?_) (fun _ h => h)) ?_
    · intro q hq hqm
      rw [tx.from_dimensions r q hq, hqm, hm]
    · rintro ⟨hR, q, hq, hqm⟩
      exact ⟨hR, q, List.mem_append_right _ hq, hqm⟩
    rintro fromRegions ⟨rfl, hfrom⟩
    rw [removeDimensionFromDefinitions]
    by_cases hd : d < 10
    · rw [if_pos hd]
      refine Ends.ok ⟨h.updateRule r _ _, ?_⟩
      rintro ⟨q, hq, hqm⟩
      rcases List.mem_append.mp hq with hq | hq
      · exact hto ⟨q, hq, hqm⟩
      · exact hfrom ⟨q, hq, hqm⟩
    · rw [if_neg hd]
      exact Ends.error OutOfRangeIf.assertion
  · obtain ⟨hto, hfrom⟩ := tx.synthetic r (Bool.eq_false_iff.mpr huser)
    rw [if_neg huser]
    refine Ends.ok ⟨⟨h.size, h.region, ?_, ?_⟩, ?_⟩
    · intro k
      by_cases hk : k = r
      · subst hk
        rw [h.toRegions, hto]
        rfl
      · rw [Function.update_of_ne hk, h.toRegions]
    · intro k
      by_cases hk : k = r
      · subst hk
        rw [h.fromRegions, hfrom]
        rfl
      · rw [Function.update_of_ne hk, h.fromRegions]
    · rintro ⟨q, hq, _⟩
      rw [hto, hfrom] at hq
      exact absurd hq List.not_mem_nil

omit [DecidableEq F] in
/-- A visit of the region of a node that still has the dimension. -/
theorem removeDimensionFromNode_ends (h : IsReduced tx sizes nodes rules st)
    (hm : (tx.initial.size m).length = d + 1) {n : Node} (hn : n ∈ tx.allNodes)
    (hfresh : nodes n m = false) :
    Ends (removeDimensionFromNode m d st n) (OutOfRangeIf False)
      (IsReduced tx sizes (Function.update nodes n (also (nodes n) m)) rules) := by
  rw [removeDimensionFromNode, h.region, Region.reduce_matrix]
  by_cases hnm : (tx.initial.region n).matrix = m
  · rw [if_pos hnm]
    have hlen : (tx.initial.region n).coords.length = d + 1 := by
      rw [tx.region_dimensions n hn, hnm, hm]
    refine Ends.bind ((removeDimension_region_ends (R := nodes n) hlen).mono
      (OutOfRangeIf.imp ?_) (fun _ h => h)) ?_
    · intro hR
      rw [hnm, hfresh] at hR
      exact Bool.noConfusion hR
    rintro q ⟨rfl, _⟩
    refine Ends.ok ⟨h.size, ?_, h.toRegions, h.fromRegions⟩
    intro k
    by_cases hk : k = n
    · subst hk
      simp only [Function.update_self]
      rw [Region.reduce, hnm, if_pos (also_self _ m)]
    · simp only [Function.update_of_ne hk]
      exact h.region k
  · rw [if_neg hnm]
    refine Ends.ok ⟨h.size, ?_, h.toRegions, h.fromRegions⟩
    intro k
    by_cases hk : k = n
    · subst hk
      rw [Function.update_self, h.region]
      exact Region.reduce_congr (also_other _ hnm).symm
    · rw [Function.update_of_ne hk, h.region]

/-- No rule with a region of the matrix is a choice of two nodes. -/
def AtMostOnce (tx : Transform M fm) (m : Matrix) (nodes : List Node) : Prop :=
  nodes.Pairwise (fun a b => ∀ r, tx.Uses r m → r ∈ tx.choices a → r ∉ tx.choices b)

/-- A visit of a node, after `done`. -/
theorem removeDimensionFromRegions_ends {done rest : List Node} {n : Node}
    (hnodes : tx.allNodes = done ++ n :: rest) (hm : (tx.initial.size m).length = d + 1)
    (hn : nodes n m = false) (hr : ∀ r, rules r m = false)
    (h : IsReduced tx sizes (mark done nodes m) (mark (done.flatMap tx.choices) rules m) st)
    (honce : tx.AtMostOnce m done) :
    Ends (tx.removeDimensionFromRegions m d st n) (OutOfRangeIf (¬ tx.AtMostOnce m tx.allNodes))
      (fun st' => IsReduced tx sizes (mark (done ++ [n]) nodes m)
          (mark ((done ++ [n]).flatMap tx.choices) rules m) st' ∧
        tx.AtMostOnce m (done ++ [n])) := by
  have hmem : n ∈ tx.allNodes := by
    rw [hnodes]
    exact List.mem_append_right _ List.mem_cons_self
  have hnew : n ∉ done := by
    intro hdone
    have hnd := tx.nodup
    rw [hnodes] at hnd
    exact (List.nodup_append.mp hnd).2.2 n hdone n List.mem_cons_self rfl
  have hfresh : mark done nodes m n m = false :=
    Bool.eq_false_iff.mpr (fun hmark => hnew ((mark_self hn).mp hmark))
  rw [removeDimensionFromRegions]
  refine Ends.bind ((removeDimensionFromNode_ends h hm hmem hfresh).mono
    (OutOfRangeIf.imp False.elim) (fun _ h => h)) ?_
  intro st₁ h₁
  rw [mark_visit] at h₁
  -- the invariant of the loop over the choices: none of those visited here was visited before
  refine (Ends.foldlM (fun visited st' =>
    IsReduced tx sizes (mark (done ++ [n]) nodes m)
      (mark (done.flatMap tx.choices ++ visited) rules m) st' ∧
    ∀ r ∈ visited, tx.Uses r m → r ∉ done.flatMap tx.choices)
    ⟨by rw [List.append_nil]; exact h₁, fun r hr => absurd hr List.not_mem_nil⟩ ?_).mono
    (fun _ h => h) ?_
  · rintro visited r rest' hchoices st₂ ⟨h₂, hvisited⟩
    have hrn : r ∈ tx.choices n := by
      rw [hchoices]
      exact List.mem_append_right _ List.mem_cons_self
    have hnotvisited : r ∉ visited := by
      intro hv
      have hnd := tx.choices_nodup n hmem
      rw [hchoices] at hnd
      exact (List.nodup_append.mp hnd).2.2 r hv r List.mem_cons_self rfl
    refine (removeDimensionFromMatrix_ends h₂ hm r).mono (OutOfRangeIf.imp ?_) ?_
    · rintro ⟨hmark, huses⟩ hpair
      rcases List.mem_append.mp ((mark_self (hr r)).mp hmark) with hbefore | hv
      · obtain ⟨a, ha, hra⟩ := List.mem_flatMap.mp hbefore
        rw [hnodes, AtMostOnce, List.pairwise_append] at hpair
        exact hpair.2.2 a ha n List.mem_cons_self r huses hra hrn
      · exact hnotvisited hv
    · rintro st₃ ⟨h₃, honce₃⟩
      rw [mark_visit, List.append_assoc] at h₃
      refine ⟨h₃, ?_⟩
      intro r' hr' huses
      rcases List.mem_append.mp hr' with hr' | hr'
      · exact hvisited r' hr' huses
      · cases List.mem_singleton.mp hr'
        intro hbefore
        have hmark : mark (done.flatMap tx.choices ++ visited) rules m r m = true :=
          (mark_self (hr r)).mpr (List.mem_append_left _ hbefore)
        rw [honce₃ huses] at hmark
        exact Bool.noConfusion hmark
  · rintro st₂ ⟨h₂, hvisited⟩
    rw [List.flatMap_append, List.flatMap_singleton]
    refine ⟨h₂, List.pairwise_append.mpr ⟨honce, List.pairwise_singleton _ _, ?_⟩⟩
    intro a ha b hb r huses hra hrb
    rw [List.mem_singleton.mp hb] at hrb
    exact hvisited r hrb huses (List.mem_flatMap.mpr ⟨a, ha, hra⟩)

/-- What a matrix, its nodes and the rules chosen somewhere have lost. -/
def IsRemoved (tx : Transform M fm) (R : Matrix → Bool) (st : StaticScheduler F) : Prop :=
  IsReduced tx R (fun n m => decide (n ∈ tx.allNodes) && R m)
    (fun r m => decide (r ∈ tx.rules) && R m) st

theorem mark_all (visited : List Nat) (R : Matrix → Bool) (m : Matrix) :
    mark visited (fun k m => decide (k ∈ visited) && R m) m =
      fun k m' => decide (k ∈ visited) && also R m m' := by
  funext k m'
  rw [mark]
  by_cases hk : k ∈ visited
  · simp [hk, also]
  · simp [hk]

/-- **A REMOVAL THAT ENDS** takes the last dimension off once; it is out of range when the
    dimension is already gone or a rule is visited twice. -/
theorem removeDimension_ends {R : Matrix → Bool} (h : tx.IsRemoved R st)
    (hm : (tx.initial.size m).length = d + 1) :
    Ends (tx.removeDimension m st d)
      (OutOfRangeIf (R m = true ∨ ¬ tx.AtMostOnce m tx.allNodes))
      (fun st' => tx.IsRemoved (also R m) st' ∧ R m = false ∧
        tx.AtMostOnce m tx.allNodes) := by
  rw [removeDimension, eraseAt, h.size]
  cases hR : R m with
  | true =>
      rw [if_pos rfl, if_neg (by rw [List.length_dropLast, hm]; omega)]
      exact Ends.error (fun _ => Or.inl rfl)
  | false =>
      rw [if_neg Bool.false_ne_true, if_pos (by omega)]
      have hsize : (tx.initial.size m).eraseIdx d = (tx.initial.size m).dropLast :=
        (List.dropLast_eq_eraseIdx hm.symm).symm
      have hstart : IsReduced tx (also R m) (mark [] (fun n m => decide (n ∈ tx.allNodes) && R m) m)
          (mark ([].flatMap tx.choices) (fun r m => decide (r ∈ tx.rules) && R m) m)
          { st with size := Function.update st.size m ((tx.initial.size m).eraseIdx d) } := by
        rw [List.flatMap_nil, mark_nil, mark_nil]
        refine ⟨?_, h.region, h.toRegions, h.fromRegions⟩
        intro m'
        by_cases hm' : m' = m
        · subst hm'
          simp only [Function.update_self, also_self, if_true, hsize]
        · simp only [Function.update_of_ne hm', also_other _ hm']
          exact h.size m'
      refine (Ends.foldlM (fun done st' =>
        IsReduced tx (also R m) (mark done (fun n m => decide (n ∈ tx.allNodes) && R m) m)
          (mark (done.flatMap tx.choices) (fun r m => decide (r ∈ tx.rules) && R m) m) st' ∧
        tx.AtMostOnce m done) ⟨hstart, List.Pairwise.nil⟩ ?_).mono
        (OutOfRangeIf.imp Or.inr) ?_
      · rintro done n rest hnodes st' ⟨h', honce⟩
        exact removeDimensionFromRegions_ends hnodes hm (by simp [hR]) (by simp [hR]) h' honce
      · rintro st' ⟨h', honce⟩
        refine ⟨?_, rfl, honce⟩
        rw [IsRemoved, ← mark_all, ← mark_all]
        exact h'

/-! ## What is found in a reduced state -/

omit [DecidableEq F] in
theorem getNonSelfDependentRegions_map {st₀ : StaticScheduler F} {r : Rule}
    {f : Region F → Region F} (hf : ∀ q, (f q).matrix = q.matrix)
    (hto : st.toRegions r = (st₀.toRegions r).map f)
    (hfrom : st.fromRegions r = (st₀.fromRegions r).map f) :
    getNonSelfDependentRegions st r = (getNonSelfDependentRegions st₀ r).map f := by
  rw [getNonSelfDependentRegions, getNonSelfDependentRegions, hto, hfrom, List.map_append,
    List.map_flatMap, List.map_flatMap, List.flatMap_map, List.flatMap_map]
  simp only [List.filter_map, List.map_map, Function.comp_def, hf]

omit [DecidableEq F] in
/-- The listed regions are the same ones, reduced. -/
theorem mem_listedRegions {R : Matrix → Bool} (h : tx.IsRemoved R st) {q : Region F} :
    q ∈ tx.listedRegions st m ↔
      ∃ q₀ ∈ tx.listedRegions tx.initial m, q = q₀.reduce R := by
  have heq : ∀ r ∈ tx.rules, getNonSelfDependentRegions st r =
      (getNonSelfDependentRegions tx.initial r).map (Region.reduce R) := by
    intro r hr
    have hR : (fun m => decide (r ∈ tx.rules) && R m) = R := by
      funext m
      simp [hr]
    refine getNonSelfDependentRegions_map (Region.reduce_matrix R) ?_ ?_
    · rw [h.toRegions r, hR]
    · rw [h.fromRegions r, hR]
  simp only [listedRegions, List.mem_flatMap, List.mem_filter, decide_eq_true_eq]
  constructor
  · rintro ⟨r, hr, hq, hqm⟩
    rw [heq r hr] at hq
    obtain ⟨q₀, hq₀, rfl⟩ := List.mem_map.mp hq
    rw [Region.reduce_matrix] at hqm
    exact ⟨q₀, ⟨r, hr, hq₀, hqm⟩, rfl⟩
  · rintro ⟨q₀, ⟨r, hr, hq₀, hqm⟩, rfl⟩
    refine ⟨r, hr, ?_, ?_⟩
    · rw [heq r hr]
      exact List.mem_map_of_mem hq₀
    · rw [Region.reduce_matrix, hqm]

omit [DecidableEq F] in
theorem listedRegions_matrix {q : Region F} (h : q ∈ tx.listedRegions st m) : q.matrix = m := by
  obtain ⟨r, _, hq⟩ := List.mem_flatMap.mp h
  exact of_decide_eq_true (List.mem_filter.mp hq).2

omit [DecidableEq F] in
theorem mem_of_listed {q : Region F} (h : q ∈ tx.listedRegions st m) :
    ∃ r ∈ tx.rules, q ∈ st.fromRegions r := by
  obtain ⟨r, hr, hq⟩ := List.mem_flatMap.mp h
  refine ⟨r, hr, ?_⟩
  rcases List.mem_append.mp (List.mem_filter.mp hq).1 with hq | hq
  · obtain ⟨inp, hinp, hq⟩ := List.mem_flatMap.mp hq
    obtain ⟨_, _, rfl⟩ := List.mem_map.mp hq
    exact hinp
  · obtain ⟨out, _, hq⟩ := List.mem_flatMap.mp hq
    exact (List.mem_filter.mp hq).1

omit [DecidableEq F] in
theorem length_vector {v : CoordinateFormula F} (h : (m, v) ∈ tx.dataDependencyVectors) :
    v.length = (tx.initial.size m).length := by
  obtain ⟨r, _, hv⟩ := List.mem_flatMap.mp h
  obtain ⟨out, hout, hv⟩ := List.mem_flatMap.mp hv
  obtain ⟨inp, hinp, hv⟩ := List.mem_map.mp hv
  obtain ⟨hinp, hio⟩ := List.mem_filter.mp hinp
  obtain ⟨rfl, rfl⟩ := Prod.mk.inj hv
  rw [computeDDVAsDifference, List.length_zipWith, tx.from_dimensions r inp hinp,
    tx.to_dimensions r out hout, ← of_decide_eq_true hio, Nat.min_self]

/-- The last dimension, of `d + 1`, is useless as far as it is looked at. -/
def Removable (tx : Transform M fm) (m : Matrix) (d : Nat) : Prop :=
  (∀ v, (m, v) ∈ tx.dataDependencyVectors → Behind M d v) ∧
    ∀ q ∈ tx.listedRegions tx.initial m, EndsAtSize M tx.initial d q

omit [DecidableEq F] in
theorem StandsFor.behind_iff {entries : List (Matrix × CoordinateFormula F)}
    {set : List (CoordinateFormula F)} (h : StandsFor M entries m set) :
    (∀ v ∈ set, Behind M d v) ↔ ∀ v, (m, v) ∈ entries → Behind M d v := by
  constructor
  · intro hset v hv s
    obtain ⟨x, hx, hxv⟩ := h.complete v hv
    rw [← hxv s]
    exact hset x hx s
  · intro hall v hv
    exact hall v (h.sound v hv)

/-- What is found where the dimension has not been removed. -/
theorem findUselessDimensions_fresh [Inhabited S] {R : Matrix → Bool} (h : tx.IsRemoved R st)
    (hm : (tx.initial.size m).length = d + 1) (hR : R m = false)
    {set : List (CoordinateFormula F)} (hset : StandsFor M tx.dataDependencyVectors m set) :
    Ends (tx.findUselessDimensions st set m) (OutOfRangeIf False)
      (Decides d (tx.Removable m d)) := by
  have hsame : ∀ q₀ : Region F, q₀.matrix = m → q₀.reduce R = q₀ := by
    intro q₀ hq₀
    rw [Region.reduce, hq₀, hR, if_neg Bool.false_ne_true]
  have hsize : st.size m = tx.initial.size m := by
    rw [h.size, hR, if_neg Bool.false_ne_true]
  refine (findUselessDimensions_ends (d := d) hset.ne_nil ?_ ?_).mono (fun _ h => h) ?_
  · intro v hv
    rw [length_vector (hset.sound v hv), hm]
  · intro q hq _
    obtain ⟨q₀, hq₀, rfl⟩ := (mem_listedRegions h).mp hq
    have hq₀m := listedRegions_matrix hq₀
    obtain ⟨r, _, hr⟩ := mem_of_listed hq₀
    rw [hsame q₀ hq₀m, tx.from_dimensions r q₀ hr, hq₀m, hm]
    exact Nat.lt_succ_self d
  intro dims hdims
  refine hdims.of_iff (and_congr hset.behind_iff ?_)
  have hends : ∀ q : Region F, q.matrix = m →
      (EndsAtSize M st d q ↔ EndsAtSize M tx.initial d q) := by
    intro q hq
    rw [EndsAtSize, EndsAtSize, hq, hsize]
  constructor
  · intro hall q₀ hq₀
    have hq₀m := listedRegions_matrix hq₀
    exact (hends q₀ hq₀m).mp
      (hall q₀ ((mem_listedRegions h).mpr ⟨q₀, hq₀, (hsame q₀ hq₀m).symm⟩))
  · intro hall q hq
    obtain ⟨q₀, hq₀, rfl⟩ := (mem_listedRegions h).mp hq
    have hq₀m := listedRegions_matrix hq₀
    rw [hsame q₀ hq₀m]
    exact (hends q₀ hq₀m).mpr (hall q₀ hq₀)

/-- What is found where it has been removed: it is found again, unless some access is listed. -/
theorem findUselessDimensions_again [Inhabited S] {R : Matrix → Bool} (h : tx.IsRemoved R st)
    (hm : (tx.initial.size m).length = d + 1) (hR : R m = true) (hremovable : tx.Removable m d)
    {set : List (CoordinateFormula F)} (hset : StandsFor M tx.dataDependencyVectors m set) :
    Ends (tx.findUselessDimensions st set m) (OutOfRangeIf False)
      (Decides d (tx.listedRegions tx.initial m = [])) := by
  have hsize : (st.size m).length = d := by
    rw [h.size, hR, if_pos rfl, List.length_dropLast, hm]
    rfl
  refine (findUselessDimensions_ends (d := d) hset.ne_nil ?_ ?_).mono (fun _ h => h) ?_
  · intro v hv
    rw [length_vector (hset.sound v hv), hm]
  · intro q hq hd
    rw [listedRegions_matrix hq, hsize] at hd
    exact absurd hd (Nat.lt_irrefl d)
  intro dims hdims
  refine hdims.of_iff ⟨?_, ?_⟩
  · rintro ⟨_, hall⟩
    rw [List.eq_nil_iff_forall_not_mem]
    intro q₀ hq₀
    have hq := (mem_listedRegions h).mpr ⟨q₀, hq₀, rfl⟩
    obtain ⟨_, _, _, hdim, _⟩ := hall _ hq
    rw [listedRegions_matrix hq, List.getElem?_eq_none (Nat.le_of_eq hsize)] at hdim
    cases hdim
  · intro hnil
    refine ⟨hset.behind_iff.mpr hremovable.1, ?_⟩
    intro q hq
    obtain ⟨q₀, hq₀, _⟩ := (mem_listedRegions h).mp hq
    rw [hnil] at hq₀
    exact absurd hq₀ List.not_mem_nil

/-! ## One matrix, one round, all rounds -/

/-- A temporary matrix that some chosen rule computes from itself. -/
def SelfDependent (tx : Transform M fm) (m : Matrix) : Prop :=
  tx.isThrough m = true ∧ ∃ v, (m, v) ∈ tx.dataDependencyVectors

/-- It has a last dimension, which is useless. -/
def HasRemovable (tx : Transform M fm) (m : Matrix) : Prop :=
  ∃ d, (tx.initial.size m).length = d + 1 ∧ tx.Removable m d

/-- Looking for a useless dimension of the matrix, and removing one once, stays in range. -/
def InRange (tx : Transform M fm) (m : Matrix) : Prop :=
  tx.initial.size m ≠ [] ∧ (tx.HasRemovable m → tx.AtMostOnce m tx.allNodes)

theorem removeFromMatrix_noDimension {set : List (CoordinateFormula F)}
    (hset : StandsFor M tx.dataDependencyVectors m set) (hm : tx.initial.size m = []) :
    Ends (tx.removeFromMatrix st (m, set)) (OutOfRangeIf True) (fun _ => False) := by
  rw [removeFromMatrix]
  suffices hfind : Ends (tx.findUselessDimensions st set m) (OutOfRangeIf True) (fun _ => False) by
    exact Ends.bind hfind (fun _ h => h.elim)
  cases set with
  | nil => exact absurd rfl hset.ne_nil
  | cons v rest =>
      have hv : v.length = 0 := by
        rw [length_vector (hset.sound v List.mem_cons_self), hm]
        rfl
      rw [findUselessDimensions]
      simp only [hv]
      exact Ends.error (fun _ => trivial)

/-- A matrix that has all its dimensions. -/
theorem removeFromMatrix_fresh [Inhabited S] {R : Matrix → Bool} (h : tx.IsRemoved R st)
    (hR : R m = false) {set : List (CoordinateFormula F)}
    (hset : StandsFor M tx.dataDependencyVectors m set) :
    Ends (tx.removeFromMatrix st (m, set)) (OutOfRangeIf (¬ tx.InRange m))
      (fun st' => tx.InRange m ∧
        ∃ R', tx.IsRemoved R' st' ∧ (∀ m', m' ≠ m → R' m' = R m') ∧
          (R' m = true ↔ tx.HasRemovable m)) := by
  rcases Nat.eq_zero_or_eq_succ_pred (tx.initial.size m).length with hm | hm
  · have hnil := List.eq_nil_of_length_eq_zero hm
    exact (removeFromMatrix_noDimension hset hnil).mono
      (OutOfRangeIf.imp (fun _ hin => hin.1 hnil)) (fun _ h => h.elim)
  obtain ⟨d, hm⟩ : ∃ d, (tx.initial.size m).length = d + 1 := ⟨_, hm⟩
  have hne : tx.initial.size m ≠ [] := List.ne_nil_of_length_eq_add_one hm
  have hremovable : tx.HasRemovable m ↔ tx.Removable m d := by
    constructor
    · rintro ⟨d', hd', hrem⟩
      rwa [show d = d' by omega]
    · intro hrem
      exact ⟨d, hm, hrem⟩
  rw [removeFromMatrix]
  refine Ends.bind ((findUselessDimensions_fresh h hm hR hset).mono
    (OutOfRangeIf.imp False.elim) (fun _ h => h)) ?_
  intro dims hdims
  rcases hdims.cases with ⟨hrem, rfl⟩ | ⟨hrem, rfl⟩
  · rw [List.foldlM_cons]
    refine Ends.bind ((removeDimension_ends h hm).mono (OutOfRangeIf.imp ?_) (fun _ h => h)) ?_
    · rintro (hgone | htwice) hin
      · rw [hR] at hgone
        exact Bool.noConfusion hgone
      · exact htwice (hin.2 (hremovable.mpr hrem))
    rintro st' ⟨h', _, honce⟩
    refine Ends.ok ⟨⟨hne, fun _ => honce⟩, also R m, h', fun m' => also_other R, ?_⟩
    exact iff_of_true (also_self R m) (hremovable.mpr hrem)
  · have hnot : ¬ tx.HasRemovable m := fun hh => hrem (hremovable.mp hh)
    refine Ends.ok ⟨⟨hne, fun hh => absurd hh hnot⟩, R, h, fun _ _ => rfl, ?_⟩
    rw [hR]
    exact iff_of_false Bool.noConfusion hnot

/-- A matrix that has lost a dimension. -/
theorem removeFromMatrix_again [Inhabited S] {R : Matrix → Bool} (h : tx.IsRemoved R st)
    (hR : R m = true) (hremovable : tx.HasRemovable m) {set : List (CoordinateFormula F)}
    (hset : StandsFor M tx.dataDependencyVectors m set) :
    Ends (tx.removeFromMatrix st (m, set))
      (OutOfRangeIf (tx.listedRegions tx.initial m = []))
      (fun st' => tx.IsRemoved R st' ∧ tx.listedRegions tx.initial m ≠ []) := by
  obtain ⟨d, hm, hrem⟩ := hremovable
  rw [removeFromMatrix]
  refine Ends.bind ((findUselessDimensions_again h hm hR hrem hset).mono
    (OutOfRangeIf.imp False.elim) (fun _ h => h)) ?_
  intro dims hdims
  rcases hdims.cases with ⟨hnil, rfl⟩ | ⟨hlisted, rfl⟩
  · rw [List.foldlM_cons]
    refine Ends.bind ((removeDimension_ends h hm).mono
      (OutOfRangeIf.imp (fun _ => hnil)) (fun _ h => h)) ?_
    rintro st' ⟨_, hfresh, _⟩
    rw [hR] at hfresh
    exact Bool.noConfusion hfresh
  · exact Ends.ok ⟨h, hlisted⟩

/-- The last dimensions of these matrices are gone, after the first round and any further one. -/
structure Settled (tx : Transform M fm) (R : Matrix → Bool) (st : StaticScheduler F) : Prop where
  removed : tx.IsRemoved R st
  which : ∀ m, R m = true ↔ tx.SelfDependent m ∧ tx.HasRemovable m
  inRange : ∀ m, tx.SelfDependent m → tx.InRange m

omit [DecidableEq F] in
theorem isRemoved_initial : tx.IsRemoved (fun _ => false) tx.initial := by
  have hid : Region.reduce (F := F) (fun _ => false) = id := by
    funext q
    exact if_neg Bool.false_ne_true
  refine ⟨fun m => (if_neg Bool.false_ne_true).symm, fun n => ?_, fun r => ?_, fun r => ?_⟩
  · simp only [Bool.and_false, hid, id]
  · simp only [Bool.and_false, hid, List.map_id_fun, id]
  · simp only [Bool.and_false, hid, List.map_id_fun, id]

omit [DecidableEq F] in
theorem Collected.mem_keys {map : MatrixDataDependencyMap F}
    (h : Collected tx tx.dataDependencyVectors map) {m : Matrix} :
    m ∈ map.entries.map Prod.fst ↔ tx.SelfDependent m := by
  constructor
  · intro hm
    obtain ⟨⟨m', set⟩, he, rfl⟩ := List.mem_map.mp hm
    obtain ⟨ht, hset⟩ := h.stands m' set (OrderedMap.mem_entries.mp he)
    obtain ⟨x, hx⟩ := List.exists_mem_of_ne_nil set hset.ne_nil
    exact ⟨ht, x, hset.sound x hx⟩
  · rintro ⟨ht, v, hv⟩
    obtain ⟨set, hset⟩ := Option.isSome_iff_exists.mp (h.complete m v ht hv)
    exact List.mem_map.mpr ⟨(m, set), OrderedMap.mem_entries.mpr hset, rfl⟩

/-- Collecting the vectors is in range for matrices that have a dimension. -/
theorem collect_ends [Inhabited S] :
    Ends tx.getDataDepsForTemporaryMatrixes
      (OutOfRangeIf (∃ m, tx.SelfDependent m ∧ ¬ tx.InRange m))
      (Collected tx tx.dataDependencyVectors) := by
  refine getDataDepsForTemporaryMatrixes_ends.mono (OutOfRangeIf.imp ?_) (fun _ h => h)
  rintro ⟨m, ht, hnil⟩
  refine ⟨m, ⟨ht, [], hnil⟩, fun hin => hin.1 ?_⟩
  exact List.eq_nil_of_length_eq_zero (length_vector hnil).symm

theorem removeUselessDimensions_first [Inhabited S] :
    Ends (tx.removeUselessDimensions tx.initial)
      (OutOfRangeIf (∃ m, tx.SelfDependent m ∧ ¬ tx.InRange m))
      (fun st => ∃ R, tx.Settled R st) := by
  rw [removeUselessDimensions]
  refine Ends.bind collect_ends ?_
  intro map hmap
  refine (Ends.foldlM (fun done st => ∃ R, tx.IsRemoved R st ∧
      (∀ m, R m = true ↔ m ∈ done.map Prod.fst ∧ tx.HasRemovable m) ∧
      ∀ m ∈ done.map Prod.fst, tx.InRange m) ?_ ?_).mono (fun _ h => h) ?_
  · refine ⟨fun _ => false, isRemoved_initial, ?_, ?_⟩
    · intro m
      exact iff_of_false Bool.noConfusion (fun h => List.not_mem_nil h.1)
    · intro m hm
      exact absurd hm List.not_mem_nil
  · rintro done ⟨m, set⟩ rest hentries st ⟨R, h, hwhich, hrange⟩
    have he : (m, set) ∈ map.entries := by
      rw [hentries]
      exact List.mem_append_right _ List.mem_cons_self
    have hset := (hmap.stands m set (OrderedMap.mem_entries.mp he)).2
    have hself : tx.SelfDependent m := hmap.mem_keys.mp (List.mem_map_of_mem he)
    have hnew : m ∉ done.map Prod.fst := by
      intro hmem
      have hnd : (map.entries.map Prod.fst).Nodup := map.keys_nodup
      rw [hentries, List.map_append, List.map_cons] at hnd
      exact (List.nodup_append.mp hnd).2.2 m hmem m List.mem_cons_self rfl
    have hR : R m = false :=
      Bool.eq_false_iff.mpr (fun hRm => hnew ((hwhich m).mp hRm).1)
    refine (removeFromMatrix_fresh h hR hset).mono
      (OutOfRangeIf.imp (fun hout => ⟨m, hself, hout⟩)) ?_
    rintro st' ⟨hin, R', h', hother, hm⟩
    refine ⟨R', h', ?_, ?_⟩
    · intro m'
      rw [List.map_append, List.mem_append, List.map_singleton, List.mem_singleton]
      by_cases hmm : m' = m
      · subst hmm
        rw [hm]
        exact ⟨fun hh => ⟨Or.inr rfl, hh⟩, fun hh => hh.2⟩
      · rw [hother m' hmm, hwhich m']
        simp [hmm]
    · intro m' hm'
      rw [List.map_append, List.mem_append, List.map_singleton, List.mem_singleton] at hm'
      rcases hm' with hm' | rfl
      · exact hrange m' hm'
      · exact hin
  · rintro st ⟨R, h, hwhich, hrange⟩
    refine ⟨R, h, ?_, ?_⟩
    · intro m
      rw [hwhich m, hmap.mem_keys]
    · intro m hself
      exact hrange m (hmap.mem_keys.mpr hself)

/-- Every useless dimension is guarded by an access that is listed. -/
def Guarded (tx : Transform M fm) : Prop :=
  ∀ m, tx.SelfDependent m → tx.HasRemovable m → tx.listedRegions tx.initial m ≠ []

theorem removeUselessDimensions_again [Inhabited S] {R : Matrix → Bool}
    (h : tx.Settled R st) :
    Ends (tx.removeUselessDimensions st) (OutOfRangeIf (¬ tx.Guarded))
      (fun st' => tx.Settled R st' ∧ tx.Guarded) := by
  rw [removeUselessDimensions]
  refine Ends.bind (collect_ends.mono (OutOfRangeIf.imp ?_) (fun _ h => h)) ?_
  · rintro ⟨m, hself, hout⟩
    exact absurd (h.inRange m hself) hout
  intro map hmap
  refine (Ends.foldlM (fun done st' => tx.IsRemoved R st' ∧
      ∀ m ∈ done.map Prod.fst, tx.HasRemovable m → tx.listedRegions tx.initial m ≠ [])
      ⟨h.removed, fun m hm => absurd hm List.not_mem_nil⟩ ?_).mono (fun _ h => h) ?_
  · rintro done ⟨m, set⟩ rest hentries st' ⟨h', hdone⟩
    have he : (m, set) ∈ map.entries := by
      rw [hentries]
      exact List.mem_append_right _ List.mem_cons_self
    have hset := (hmap.stands m set (OrderedMap.mem_entries.mp he)).2
    have hself : tx.SelfDependent m := hmap.mem_keys.mp (List.mem_map_of_mem he)
    have hextend : (tx.HasRemovable m → tx.listedRegions tx.initial m ≠ []) →
        ∀ m' ∈ (done ++ [(m, set)]).map Prod.fst,
          tx.HasRemovable m' → tx.listedRegions tx.initial m' ≠ [] := by
      intro hm m' hm'
      rw [List.map_append, List.mem_append, List.map_singleton, List.mem_singleton] at hm'
      rcases hm' with hm' | rfl
      · exact hdone m' hm'
      · exact hm
    by_cases hR : R m = true
    · have hrem := ((h.which m).mp hR).2
      refine (removeFromMatrix_again h' hR hrem hset).mono (OutOfRangeIf.imp ?_) ?_
      · intro hnil hguarded
        exact hguarded m hself hrem hnil
      · rintro st'' ⟨h'', hlisted⟩
        exact ⟨h'', hextend (fun _ => hlisted)⟩
    · have hnot : ¬ tx.HasRemovable m := fun hrem => hR ((h.which m).mpr ⟨hself, hrem⟩)
      refine (removeFromMatrix_fresh h' (Bool.eq_false_iff.mpr hR) hset).mono
        (OutOfRangeIf.imp (fun hout => absurd (h.inRange m hself) hout)) ?_
      rintro st'' ⟨_, R', h'', hother, hm⟩
      have hRR : R' = R := by
        funext m'
        by_cases hmm : m' = m
        · subst hmm
          rw [Bool.eq_false_iff.mpr hR]
          exact Bool.eq_false_iff.mpr (fun hh => hnot (hm.mp hh))
        · exact hother m' hmm
      rw [hRR] at h''
      exact ⟨h'', hextend (fun hrem => absurd hrem hnot)⟩
  · rintro st' ⟨h', hdone⟩
    refine ⟨⟨h', h.which, h.inRange⟩, ?_⟩
    intro m hself
    exact hdone m (hmap.mem_keys.mpr hself)

/-- Further rounds. -/
theorem generateSchedule_again [Inhabited S] {R : Matrix → Bool} (n : Nat)
    (h : tx.Settled R st) :
    Ends (tx.generateSchedule n st) (OutOfRangeIf (¬ (n = 0 ∨ tx.Guarded)))
      (fun st' => tx.Settled R st' ∧ (n = 0 ∨ tx.Guarded)) := by
  induction n generalizing st with
  | zero => exact Ends.ok ⟨h, Or.inl rfl⟩
  | succ n ih =>
      rw [generateSchedule]
      refine Ends.bind ((removeUselessDimensions_again h).mono
        (OutOfRangeIf.imp (fun hout hh => hout (hh.resolve_left (Nat.succ_ne_zero n))))
        (fun _ h => h)) ?_
      rintro st' ⟨h', hguarded⟩
      refine (ih h').mono (OutOfRangeIf.imp ?_) ?_
      · exact fun hout _ => hout (Or.inr hguarded)
      · exact fun st'' hh => ⟨hh.1, Or.inr hguarded⟩

/-- **HOW A RUN THROUGH THE CHOICE ASSIGNMENTS ENDS**: the first removes the useless dimensions,
    the others have to find them guarded. -/
theorem generateSchedule_ends [Inhabited S] {n : Nat} (hn : 0 < n) :
    Ends (tx.generateSchedule n tx.initial)
      (OutOfRangeIf (¬ ((∀ m, tx.SelfDependent m → tx.InRange m) ∧ (n = 1 ∨ tx.Guarded))))
      (fun st => (∃ R, tx.Settled R st) ∧ (n = 1 ∨ tx.Guarded)) := by
  obtain ⟨n, rfl⟩ := Nat.exists_eq_succ_of_ne_zero (Nat.ne_of_gt hn)
  rw [generateSchedule]
  refine Ends.bind (removeUselessDimensions_first.mono (OutOfRangeIf.imp ?_) (fun _ h => h)) ?_
  · rintro ⟨m, hself, hout⟩ hh
    exact hout (hh.1 m hself)
  rintro st ⟨R, h⟩
  refine (generateSchedule_again n h).mono (OutOfRangeIf.imp ?_) ?_
  · intro hout hh
    exact hout (hh.2.imp_left Nat.succ.inj)
  · rintro st' ⟨h', hn'⟩
    exact ⟨⟨R, h'⟩, hn'.imp_left (congrArg Nat.succ)⟩

end Transform

end PbUselessDimension
