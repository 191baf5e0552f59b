import PetaBricks.SchedulerModel
import PetaBricks.SaturationProofs
import Mathlib.Algebra.BigOperators.Group.Finset.Basic
import Mathlib.Algebra.Order.BigOperators.Group.Finset

/-!
# Dependency information is a join semilattice, and the closure loop saturates

`DependencyInformation::merge` joins rule sets and direction masks.  The join is idempotent,
commutative and associative, its default value is a bottom, and `merge` reports a change
exactly when the join differs from what was there.  That makes
`computeIndirectDependencies` an instance of round-robin saturation, slot for slot
(`computeIndirectDependencies_eq`), so it stops on every graph, and what it leaves in
`_indirectDepends` is the transitive closure of `directDepends` with the directions of the
edges joined (`chooseRules_spec`).

The only fact about dependencies this needs is that each names a rule, which `addDependency`
sees to.
-/

namespace PbScheduler

open PbOrderedMap PbSaturation Relation

/-! ## Directions -/

namespace DependencyDirection

theorem size_addDirection (a b : DependencyDirection) :
    (a.addDirection b).size = max a.size b.size := by
  rw [size, addDirection, List.length_map, List.length_range]

theorem mask_of_size_le {d : DependencyDirection} {i : Nat} (h : d.size ≤ i) :
    d.mask i = D_NONE := by
  rw [mask, List.getD_eq_getElem?_getD, List.getElem?_eq_none h]
  rfl

theorem mask_addDirection (a b : DependencyDirection) (i : Nat) :
    (a.addDirection b).mask i = a.mask i ||| b.mask i := by
  by_cases h : i < max a.size b.size
  · rw [mask, addDirection, List.getD_eq_getElem?_getD, List.getElem?_map,
      List.getElem?_range h]
    rfl
  · have hmax := size_addDirection a b
    rw [mask_of_size_le (by omega), mask_of_size_le (d := a) (by omega),
      mask_of_size_le (d := b) (by omega)]
    rfl

/-- A direction is its size and its masks. -/
theorem ext_mask {a b : DependencyDirection} (hs : a.size = b.size)
    (hm : ∀ i, a.mask i = b.mask i) : a = b := by
  obtain ⟨l⟩ := a
  obtain ⟨l'⟩ := b
  have hl : l = l' := by
    apply List.ext_getElem hs
    intro i h h'
    have := hm i
    rw [mask, mask, List.getD_eq_getElem?_getD, List.getD_eq_getElem?_getD,
      List.getElem?_eq_getElem h, List.getElem?_eq_getElem h'] at this
    exact this
  rw [hl]

instance : Max DependencyDirection := ⟨addDirection⟩

theorem sup_def (a b : DependencyDirection) : a ⊔ b = a.addDirection b := rfl

instance : SemilatticeSup DependencyDirection :=
  SemilatticeSup.mk'
    (fun a b => ext_mask
      (by rw [sup_def, sup_def, size_addDirection, size_addDirection, max_comm])
      (fun i => by rw [sup_def, sup_def, mask_addDirection, mask_addDirection, BitVec.or_comm]))
    (fun a b c => ext_mask
      (by simp only [sup_def, size_addDirection, max_assoc])
      (fun i => by simp only [sup_def, mask_addDirection, BitVec.or_assoc]))
    (fun a => ext_mask
      (by rw [sup_def, size_addDirection, max_self])
      (fun i => by rw [sup_def, mask_addDirection, BitVec.or_self]))

theorem size_sup (a b : DependencyDirection) : (a ⊔ b).size = max a.size b.size :=
  size_addDirection a b

theorem mask_sup (a b : DependencyDirection) (i : Nat) :
    (a ⊔ b).mask i = a.mask i ||| b.mask i := mask_addDirection a b i

theorem size_le {a b : DependencyDirection} (h : a ≤ b) : a.size ≤ b.size := by
  rw [← sup_eq_right.mpr h, size_sup]
  exact le_max_left _ _

theorem mask_or_of_le {a b : DependencyDirection} (h : a ≤ b) (i : Nat) :
    a.mask i ||| b.mask i = b.mask i := by
  conv_rhs => rw [← sup_eq_right.mpr h, mask_sup]

/-- How much a direction holds. -/
def rank (d : DependencyDirection) : Nat :=
  d.size + ∑ i ∈ Finset.range d.size, (d.mask i).toNat

theorem toNat_mask_le {a b : DependencyDirection} (h : a ≤ b) (i : Nat) :
    (a.mask i).toNat ≤ (b.mask i).toNat := by
  rw [← mask_or_of_le h i, BitVec.toNat_or]
  exact Nat.left_le_or

theorem rank_mono {a b : DependencyDirection} (h : a ≤ b) : rank a ≤ rank b := by
  have hsum : ∑ i ∈ Finset.range a.size, (a.mask i).toNat ≤
      ∑ i ∈ Finset.range b.size, (b.mask i).toNat :=
    calc ∑ i ∈ Finset.range a.size, (a.mask i).toNat
        ≤ ∑ i ∈ Finset.range a.size, (b.mask i).toNat :=
          Finset.sum_le_sum (fun i _ => toNat_mask_le h i)
      _ ≤ ∑ i ∈ Finset.range b.size, (b.mask i).toNat :=
          Finset.sum_le_sum_of_subset (Finset.range_mono (size_le h))
  have := size_le h
  rw [rank, rank]
  omega

/-- A larger direction of the same rank is the same direction. -/
theorem eq_of_rank_eq {a b : DependencyDirection} (h : a ≤ b) (hr : rank a = rank b) :
    a = b := by
  have hsize := size_le h
  have hsum : ∑ i ∈ Finset.range a.size, (a.mask i).toNat ≤
      ∑ i ∈ Finset.range b.size, (b.mask i).toNat :=
    (Finset.sum_le_sum (fun i _ => toNat_mask_le h i)).trans
      (Finset.sum_le_sum_of_subset (Finset.range_mono hsize))
  rw [rank, rank] at hr
  have hs : a.size = b.size := by omega
  rw [hs] at hsum hr
  have hall := (Finset.sum_eq_sum_iff_of_le (fun i _ => toNat_mask_le h i)).mp
    (show ∑ i ∈ Finset.range b.size, (a.mask i).toNat =
      ∑ i ∈ Finset.range b.size, (b.mask i).toNat by omega)
  apply ext_mask hs
  intro i
  by_cases hi : i < b.size
  · exact BitVec.eq_of_toNat_eq (hall i (Finset.mem_range.mpr hi))
  · rw [mask_of_size_le (by omega), mask_of_size_le (by omega)]

end DependencyDirection

/-! ## Dependency information -/

namespace DependencyInformation

instance : Max DependencyInformation :=
  ⟨fun a b => ⟨a.rules ∪ b.rules, a.direction ⊔ b.direction⟩⟩

theorem sup_def (a b : DependencyInformation) :
    a ⊔ b = ⟨a.rules ∪ b.rules, a.direction ⊔ b.direction⟩ := rfl

instance : SemilatticeSup DependencyInformation :=
  SemilatticeSup.mk'
    (fun a b => by rw [sup_def, sup_def, Finset.union_comm, sup_comm])
    (fun a b c => by simp only [sup_def, Finset.union_assoc, sup_assoc])
    (fun a => by rw [sup_def, Finset.union_self, sup_idem])

instance : OrderBot DependencyInformation where
  bot := default
  bot_le a := by
    apply sup_eq_right.mp
    rw [sup_def]
    have hr : (default : DependencyInformation).rules ∪ a.rules = a.rules :=
      Finset.empty_union a.rules
    have hd : (default : DependencyInformation).direction ⊔ a.direction = a.direction := by
      apply DependencyDirection.ext_mask
      · rw [DependencyDirection.size_sup]
        exact max_eq_right (Nat.zero_le _)
      · intro i
        rw [DependencyDirection.mask_sup]
        exact BitVec.zero_or
    rw [hr, hd]

theorem default_eq_bot : (default : DependencyInformation) = ⊥ := rfl

/-- `merge` computes the join. -/
theorem merge_fst (a b : DependencyInformation) : (a.merge b).1 = a ⊔ b := rfl

/-- `merge` reports exactly the joins that change something. -/
theorem merge_snd (a b : DependencyInformation) : (a.merge b).2 = true ↔ a ⊔ b ≠ a := by
  show (decide ((a.rules ∪ b.rules).card ≠ a.rules.card) ||
    decide (a.direction ≠ a.direction.addDirection b.direction)) = true ↔ _
  rw [Bool.or_eq_true, decide_eq_true_eq, decide_eq_true_eq]
  constructor
  · rintro (h | h) heq
    · exact h (congrArg (fun x => x.rules.card) heq)
    · exact h (congrArg (fun x => x.direction) heq).symm
  · intro hne
    by_contra hcon
    rw [not_or, not_not, not_not] at hcon
    apply hne
    have hrules : a.rules ∪ b.rules = a.rules :=
      (Finset.eq_of_subset_of_card_le Finset.subset_union_left (le_of_eq hcon.1)).symm
    rw [sup_def, hrules, DependencyDirection.sup_def, ← hcon.2]

/-- How much a dependency holds. -/
def rank (d : DependencyInformation) : Nat := d.rules.card + d.direction.rank

theorem le_iff {a b : DependencyInformation} :
    a ≤ b ↔ a.rules ⊆ b.rules ∧ a.direction ≤ b.direction := by
  rw [← sup_eq_right, sup_def, ← sup_eq_right (a := a.direction), ← Finset.union_eq_right]
  constructor
  · intro h
    exact ⟨congrArg rules h, congrArg direction h⟩
  · rintro ⟨h, h'⟩
    rw [h, h']

theorem rank_strictMono : StrictMono rank := by
  intro a b hlt
  obtain ⟨hr, hd⟩ := le_iff.mp (le_of_lt hlt)
  have hcard := Finset.card_le_card hr
  have hdir := DependencyDirection.rank_mono hd
  have hne : rank a ≠ rank b := by
    intro heq
    rw [rank, rank] at heq
    have hrules : a.rules = b.rules := Finset.eq_of_subset_of_card_le hr (by omega)
    have hdirs : a.direction = b.direction := DependencyDirection.eq_of_rank_eq hd (by omega)
    apply ne_of_lt hlt
    obtain ⟨ra, da⟩ := a
    obtain ⟨rb, db⟩ := b
    rw [show ra = rb from hrules, show da = db from hdirs]
  rw [rank, rank] at hne ⊢
  omega

end DependencyInformation

/-! ## The closure loop is saturation -/

namespace StaticScheduler

/-- The scheduler with other indirect dependencies. -/
def withIndirect (g : StaticScheduler) (I : Node → ScheduleDependencies) : StaticScheduler :=
  { g with indirectDepends := I }

theorem mergeRemote_eq (s : ScheduleDependencies × Nat) (remote : ScheduleDependencies) :
    mergeRemote s remote = joinAll s remote := by
  rw [mergeRemote, joinAll]
  congr 1
  funext s dep
  rw [joinEntry]
  simp only [DependencyInformation.merge_fst, DependencyInformation.default_eq_bot]
  congr 1
  by_cases h : (s.1.find dep.1).getD ⊥ ⊔ dep.2 = (s.1.find dep.1).getD ⊥
  · rw [if_pos h, if_neg]
    rw [DependencyInformation.merge_snd]
    exact not_not.mpr h
  · rw [if_neg h, if_pos]
    exact (DependencyInformation.merge_snd _ _).mpr h

theorem updateIndirectDepends_eq (g : StaticScheduler) (n : Node) :
    g.updateIndirectDepends n =
      (g.withIndirect (relax g.directDepends g.indirectDepends n).1,
        (relax g.directDepends g.indirectDepends n).2) := by
  rw [updateIndirectDepends, relax]
  simp only [mergeRemote_eq]
  rfl

theorem foldl_updateIndirectDepends (g : StaticScheduler) (l : List Node)
    (s : (Node → ScheduleDependencies) × Nat) :
    l.foldl (fun s i => ((s.1.updateIndirectDepends i).1,
        s.2 + (s.1.updateIndirectDepends i).2)) (g.withIndirect s.1, s.2) =
      (g.withIndirect (l.foldl (fun s n => ((relax g.directDepends s.1 n).1,
          s.2 + (relax g.directDepends s.1 n).2)) s).1,
        (l.foldl (fun s n => ((relax g.directDepends s.1 n).1,
          s.2 + (relax g.directDepends s.1 n).2)) s).2) := by
  induction l generalizing s with
  | nil => rfl
  | cons n rest ih =>
      rw [List.foldl_cons, List.foldl_cons, updateIndirectDepends_eq]
      exact ih ((relax g.directDepends s.1 n).1, s.2 + (relax g.directDepends s.1 n).2)

/-- **THE CLOSURE LOOP IS SATURATION**: it rewrites the indirect dependencies only, and
    rewrites them the way `saturate` does. -/
theorem computeIndirectDependencies_eq (fuel : Nat) (g : StaticScheduler) :
    computeIndirectDependencies fuel g =
      match saturate g.directDepends g.allNodes fuel g.indirectDepends with
      | none => .error .outOfFuel
      | some I => .ok (g.withIndirect I) := by
  induction fuel generalizing g with
  | zero => rfl
  | succ fuel ih =>
      rw [computeIndirectDependencies, saturate]
      have hround := foldl_updateIndirectDepends g g.allNodes (g.indirectDepends, 0)
      change g.allNodes.foldl _ (g, 0) =
        (g.withIndirect (round g.directDepends g.allNodes g.indirectDepends).1,
          (round g.directDepends g.allNodes g.indirectDepends).2) at hround
      simp only [hround]
      by_cases hz : (round g.directDepends g.allNodes g.indirectDepends).2 = 0
      · rw [if_pos hz, if_pos hz]
      · rw [if_neg hz, if_neg hz, ih]
        rfl

/-- More fuel does not change a result. -/
theorem computeIndirectDependencies_mono {fuel fuel' : Nat} {g r : StaticScheduler}
    (h : computeIndirectDependencies fuel g = .ok r) (hle : fuel ≤ fuel') :
    computeIndirectDependencies fuel' g = .ok r := by
  induction fuel generalizing fuel' g with
  | zero => cases h
  | succ fuel ih =>
      obtain ⟨fuel', rfl⟩ := Nat.exists_eq_succ_of_ne_zero (by omega : fuel' ≠ 0)
      rw [computeIndirectDependencies] at h ⊢
      simp only at h ⊢
      split at h
      · rename_i hzero
        rw [if_pos hzero]
        exact h
      · rename_i hzero
        rw [if_neg hzero]
        exact ih h (Nat.le_of_succ_le_succ hle)

/-! ## Choosing rules -/

/-- A scheduler as the transform builds it: dependencies run between its nodes and name a
    rule, and nothing computes an input. -/
structure WellFormed (g : StaticScheduler) : Prop where
  nodup : g.allNodes.Nodup
  source : ∀ n k, k ∈ g.directDependsOriginal n → n ∈ g.allNodes
  target : ∀ n k, k ∈ g.directDependsOriginal n → k ∈ g.allNodes
  ruled : ∀ n k v, (g.directDependsOriginal n).find k = some v → v.rules.Nonempty
  inputs : ∀ n ∈ g.inputsOriginal, n ∈ g.allNodes ∧ ∀ k, k ∉ g.directDependsOriginal n
  intermediates : ∀ n ∈ g.intermediatesOriginal, n ∈ g.allNodes
  outputs : ∀ n ∈ g.outputsOriginal, n ∈ g.allNodes ∧ g.isOutput n = true

/-- The scheduler with other remapped and indirect dependencies. -/
def withDepends (g : StaticScheduler) (R I : Node → ScheduleDependencies) : StaticScheduler :=
  { g with directDependsRemapped := R, indirectDepends := I }

/-- The dependencies of a node that name the chosen rule, trimmed. -/
def chosenDepends (g : StaticScheduler) (choice : Option Rule) (n : Node) :
    ScheduleDependencies :=
  (g.directDependsOriginal n).entries.foldl
    (fun m i =>
      if i.2.contains choice then
        m.insert i.1 ⟨i.2.rules, g.trimDependency choice i.2.direction⟩
      else m) ∅

theorem foldl_resetRemapping (g : StaticScheduler) (l : List Node)
    (R I : Node → ScheduleDependencies) :
    ∃ R' I', l.foldl resetRemapping (g.withDepends R I) = g.withDepends R' I' ∧
      ∀ n, (n ∈ l → R' n = ∅ ∧ I' n = ∅) ∧ (R n = ∅ → R' n = ∅) ∧ (I n = ∅ → I' n = ∅) := by
  induction l generalizing R I with
  | nil => exact ⟨R, I, rfl, fun n => ⟨fun h => absurd h List.not_mem_nil, id, id⟩⟩
  | cons i rest ih =>
      obtain ⟨R', I', heq, hspec⟩ := ih (Function.update R i ∅) (Function.update I i ∅)
      refine ⟨R', I', heq, ?_⟩
      intro n
      obtain ⟨h1, h2, h3⟩ := hspec n
      by_cases hn : n = i
      · subst hn
        rw [Function.update_self] at h2 h3
        exact ⟨fun _ => ⟨h2 rfl, h3 rfl⟩, fun _ => h2 rfl, fun _ => h3 rfl⟩
      · rw [Function.update_of_ne hn] at h2 h3
        refine ⟨fun h => h1 ?_, h2, h3⟩
        exact (List.mem_cons.mp h).resolve_left hn

theorem foldl_applyChoiceRemapping (g : StaticScheduler) (choice : RuleChoiceAssignment)
    (l : List Node) (hl : l.Nodup) (R I : Node → ScheduleDependencies)
    (hR : ∀ n ∈ l, R n = ∅) :
    ∃ R', l.foldl (fun g i => g.applyChoiceRemapping choice i) (g.withDepends R I) =
        g.withDepends R' I ∧
      ∀ n, R' n = if n ∈ l then g.chosenDepends (choice n) n else R n := by
  induction l generalizing R with
  | nil => exact ⟨R, rfl, fun n => (if_neg List.not_mem_nil).symm⟩
  | cons i rest ih =>
      obtain ⟨hi, hrest⟩ := List.nodup_cons.mp hl
      have hstep : (g.withDepends R I).applyChoiceRemapping choice i =
          g.withDepends (Function.update R i (g.chosenDepends (choice i) i)) I := by
        rw [applyChoiceRemapping]
        show g.withDepends (Function.update R i (List.foldl _ (R i) _)) I = _
        rw [hR i List.mem_cons_self]
        rfl
      obtain ⟨R', heq, hspec⟩ := ih hrest
        (Function.update R i (g.chosenDepends (choice i) i)) (by
          intro n hn
          have hne : n ≠ i := fun h => hi (h ▸ hn)
          rw [Function.update_of_ne hne]
          exact hR n (List.mem_cons_of_mem _ hn))
      refine ⟨R', ?_, ?_⟩
      · rw [List.foldl_cons, hstep]
        exact heq
      · intro n
        rw [hspec n]
        by_cases hn : n = i
        · subst hn
          rw [if_neg hi, if_pos List.mem_cons_self, Function.update_self]
        · rw [Function.update_of_ne hn]
          by_cases hr : n ∈ rest
          · rw [if_pos hr, if_pos (List.mem_cons_of_mem _ hr)]
          · rw [if_neg hr, if_neg (fun h => hr ((List.mem_cons.mp h).resolve_left hn))]

/-- The chosen dependencies, slot by slot: those that name the chosen rule, trimmed. -/
theorem find_chosenDepends {g : StaticScheduler} {choice : Option Rule} {n k : Node}
    {v : DependencyInformation} :
    (g.chosenDepends choice n).find k = some v ↔
      ∃ w, (g.directDependsOriginal n).find k = some w ∧ w.contains choice = true ∧
        v = ⟨w.rules, g.trimDependency choice w.direction⟩ := by
  have hfind := OrderedMap.find_foldl_copy
    (p := fun w : DependencyInformation => w.contains choice = true)
    (f := fun w => ⟨w.rules, g.trimDependency choice w.direction⟩)
    (m := ∅) (b := k) (g.directDependsOriginal n).keys_nodup
  change (g.chosenDepends choice n).find k = ((g.directDependsOriginal n).find k).elim none _
    at hfind
  rw [hfind]
  cases (g.directDependsOriginal n).find k with
  | none => simp
  | some w =>
      by_cases hc : w.contains choice = true
      · simp only [Option.elim_some, if_pos hc, Option.some.injEq]
        constructor
        · intro h
          exact ⟨w, rfl, hc, h.symm⟩
        · rintro ⟨w', rfl, _, h⟩
          exact h.symm
      · simp only [Option.elim_some, if_neg hc, OrderedMap.find_empty, Option.some.injEq]
        constructor
        · intro h
          cases h
        · rintro ⟨w', rfl, h, _⟩
          exact absurd h hc

/-- A chosen dependency is an original one, with its rules. -/
theorem original_of_chosen {g : StaticScheduler} {choice : Option Rule} {n k : Node}
    {v : DependencyInformation} (h : (g.chosenDepends choice n).find k = some v) :
    ∃ w, (g.directDependsOriginal n).find k = some w ∧ v.rules = w.rules := by
  obtain ⟨w, hw, _, rfl⟩ := find_chosenDepends.mp h
  exact ⟨w, hw, rfl⟩

/-- What the merge may rely on: the dependencies of the nodes stay among the nodes, and the
    indirect dependencies are derived and saturated. -/
structure Closed (g : StaticScheduler) : Prop where
  nodup : g.allNodes.Nodup
  graph : ClosedGraph g.directDepends g.allNodes
  inputs : ∀ n ∈ g.inputsOriginal, n ∈ g.allNodes ∧ ∀ k, k ∉ g.directDepends n
  intermediates : ∀ n ∈ g.intermediatesOriginal, n ∈ g.allNodes
  outputs : ∀ n ∈ g.outputsOriginal, n ∈ g.allNodes ∧ g.isOutput n = true
  sound : Sound g.directDepends g.allNodes g.indirectDepends
  saturated : Saturated g.directDepends g.allNodes g.indirectDepends

/-- A direct dependency of a node whose remapped dependencies are the chosen ones is an
    original one, with its rules. -/
theorem original_of_direct {g : StaticScheduler} {choice : RuleChoiceAssignment} {n k : Node}
    (hR : g.directDependsRemapped n = g.chosenDepends (choice n) n)
    {v : DependencyInformation} (h : (g.directDepends n).find k = some v) :
    ∃ w, (g.directDependsOriginal n).find k = some w ∧ v.rules = w.rules := by
  rw [directDepends] at h
  by_cases he : (g.directDependsRemapped n).entries = []
  · rw [if_pos he] at h
    exact ⟨v, h, rfl⟩
  · rw [if_neg he, hR] at h
    exact original_of_chosen h

/-- **CHOOSING RULES CLOSES THE GRAPH**: with enough fuel the closure loop stops, and leaves the
    chosen dependencies of every node together with their transitive closure. -/
theorem chooseRules_spec {g : StaticScheduler} (hg : WellFormed g)
    (choice : RuleChoiceAssignment) :
    ∃ fuel₀ R I, (∀ fuel, fuel₀ ≤ fuel →
        g.chooseRules choice fuel = .ok (g.withDepends R I)) ∧
      (∀ n ∈ g.allNodes, R n = g.chosenDepends (choice n) n) ∧ Closed (g.withDepends R I) := by
  obtain ⟨R₁, I₁, hreset, hempty⟩ := foldl_resetRemapping g g.allNodes
    g.directDependsRemapped g.indirectDepends
  obtain ⟨R, happly, hR⟩ := foldl_applyChoiceRemapping g choice g.allNodes hg.nodup R₁ I₁
    (fun n hn => ((hempty n).1 hn).1)
  have hchosen : ∀ n ∈ g.allNodes, R n = g.chosenDepends (choice n) n := by
    intro n hn
    rw [hR n, if_pos hn]
  have horig : ∀ I, ∀ n ∈ g.allNodes, ∀ k v,
      ((g.withDepends R I).directDepends n).find k = some v →
        ∃ w, (g.directDependsOriginal n).find k = some w ∧ v.rules = w.rules :=
    fun I n hn k v hv =>
      @original_of_direct (g.withDepends R I) choice n k (hchosen n hn) v hv
  have hgraph : ∀ I, ClosedGraph (g.withDepends R I).directDepends g.allNodes := by
    intro I
    constructor
    · intro n hn k hk
      obtain ⟨v, hv⟩ := OrderedMap.mem_iff.mp hk
      obtain ⟨w, hw, _⟩ := horig I n hn k v hv
      exact hg.target n k (OrderedMap.mem_iff.mpr ⟨w, hw⟩)
    · intro n hn k v hv hbot
      obtain ⟨w, hw, hrules⟩ := horig I n hn k v hv
      -- a dependency that names a rule is not the default one
      have hne := hg.ruled n k w hw
      rw [← hrules, hbot] at hne
      exact Finset.not_nonempty_empty hne
  have hI₁ : ∀ n ∈ g.allNodes, I₁ n = ∅ := fun n hn => ((hempty n).1 hn).2
  have hsound : Sound (g.withDepends R I₁).directDepends g.allNodes I₁ := by
    intro n hn k v hv
    rw [hI₁ n hn] at hv
    cases hv
  have hseeded : Seeded (g.withDepends R I₁).directDepends g.allNodes I₁ := by
    intro n hn
    rw [hI₁ n hn]
    exact Or.inl rfl
  obtain ⟨fuel₀, I, hsat⟩ := exists_saturate DependencyInformation.rank_strictMono
    (hgraph I₁) hsound hseeded
  refine ⟨fuel₀, R, I, ?_, hchosen, ?_⟩
  · intro fuel hle
    have hrun : g.chooseRules choice fuel =
        computeIndirectDependencies fuel (g.withDepends R I₁) := by
      have hreset' : g.allNodes.foldl resetRemapping g = g.withDepends R₁ I₁ := hreset
      rw [chooseRules]
      simp only [hreset']
      exact congrArg (computeIndirectDependencies fuel) happly
    rw [hrun, computeIndirectDependencies_eq]
    change (match saturate (g.withDepends R I₁).directDepends g.allNodes fuel I₁ with
      | none => _
      | some I => _) = _
    rw [saturate_mono hsat hle]
    rfl
  · obtain ⟨h1, h2⟩ := saturate_spec (hgraph I₁) hsound hseeded hsat
    refine ⟨hg.nodup, hgraph I, ?_, hg.intermediates, hg.outputs, h1, h2⟩
    intro n hn
    obtain ⟨hmem, hnone⟩ := hg.inputs n hn
    refine ⟨hmem, ?_⟩
    intro k hk
    obtain ⟨v, hv⟩ := OrderedMap.mem_iff.mp hk
    obtain ⟨w, hw, _⟩ := horig I n hmem k v hv
    exact hnone k (OrderedMap.mem_iff.mpr ⟨w, hw⟩)

end StaticScheduler

end PbScheduler
