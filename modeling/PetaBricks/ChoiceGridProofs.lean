import PetaBricks.OrderedMapProofs
import PetaBricks.TilingProofs
import Mathlib.Data.Prod.Lex
import Mathlib.Data.List.Sort
import Mathlib.Data.List.Pairwise

/-!
# The choice grid — regions with uniform sets of applicable rules

`Transform::fillBaseCases` collects where the regions of the rules begin and end in each
dimension, sorts these boundaries, and lets `ChoiceGrid::constructFrom` sweep them: the rules
whose region is open are active, and whenever the position changes the segment up to the new
position is closed with the active rules and cut further in the next dimension, among the
active rules only.

  * `elements` is the chain of segments a sweep leaves in one dimension; they lie end to end
    from 0 to the last boundary (`PbTiling`);
  * a rule with a nonempty interval is active exactly while its begin is swept and its end is
    not, which makes it active in the segments its interval contains;
  * `index` is the nested cut, and `buildIndex` lists it.

A region is given by the coordinates of its corners, which are integers here.
-/

namespace PbChoiceGrid

open PbOrderedMap PbTiling

/-! ## Rules -/

/-- What `RulePriCmp` and the rule priorities read of a rule. -/
structure RuleInterface where
  id : Nat
  priority : Int
  hasWhereClause : Bool
  deriving DecidableEq, Repr

/-- `priority()*2 - hasWhereClause()`, then `id()`. -/
def RuleInterface.key (r : RuleInterface) : Int ×ₗ Nat :=
  toLex (r.priority * 2 - (if r.hasWhereClause then 1 else 0), r.id)

theorem RuleInterface.key_injective : Function.Injective RuleInterface.key := by
  rintro ⟨i, p, w⟩ ⟨j, q, v⟩ h
  obtain ⟨h1, rfl⟩ := Prod.mk.inj (toLex.injective h)
  cases w <;> cases v <;> simp_all
  all_goals omega

/-- `RulePriCmp`. -/
instance : LinearOrder RuleInterface :=
  LinearOrder.lift' RuleInterface.key RuleInterface.key_injective

abbrev RuleSet := OrderedSet RuleInterface

/-! ## Boundaries -/

inductive DescriptorType
  | RULE_BEGIN
  | RULE_END
  deriving DecidableEq, Repr

structure RuleDescriptor where
  type : DescriptorType
  rule : RuleInterface
  formula : Int
  deriving DecidableEq, Repr

abbrev RuleDescriptorList := List RuleDescriptor

/-- `operator<`, with its optimisation for equal texts and its zero handling. -/
def RuleDescriptor.lt (this that : RuleDescriptor) : Bool :=
  let orEqual := this.type = .RULE_END && that.type = .RULE_BEGIN
  if this.formula = that.formula then orEqual
  else if this.formula = 0 then true
  else if that.formula = 0 then false
  else if orEqual then this.formula ≤ that.formula
  else this.formula < that.formula

/-- Equal texts order an end before a begin; otherwise zero goes first, then the rest. -/
theorem lt_iff {a b : RuleDescriptor} :
    a.lt b = true ↔
      (a.formula = b.formula ∧ a.type = .RULE_END ∧ b.type = .RULE_BEGIN) ∨
      (a.formula ≠ b.formula ∧
        (a.formula = 0 ∨ (b.formula ≠ 0 ∧ a.formula < b.formula))) := by
  unfold RuleDescriptor.lt
  by_cases heq : a.formula = b.formula
  · simp [heq]
  · by_cases ha : a.formula = 0
    · have hb : 0 ≠ b.formula := ha ▸ heq
      simp [ha, hb]
    · by_cases hb : b.formula = 0
      · simp [hb, ha]
      · have hle : a.formula ≤ b.formula ↔ a.formula < b.formula := by omega
        simp [heq, ha, hb, hle]

/-! ## The grid -/

/-- A pointer to a `ChoiceGrid`.  The end of a node is null until it is finalized. -/
inductive ChoiceGridPtr
  | null
  | node (beginPos : Int) (endPos : Option Int) (applicableRules : RuleSet)
      (nextElement nextDimension : ChoiceGridPtr)

def ChoiceGridPtr.isNull : ChoiceGridPtr → Bool
  | .null => true
  | .node .. => false

def ChoiceGridPtr.rules : ChoiceGridPtr → RuleSet
  | .null => ∅
  | .node _ _ applicableRules _ _ => applicableRules

/-- Keep the rules up to the first one of a later priority, unless the rule before it has a
    where clause. -/
def applyRulePriorities (applicableRules : RuleSet) : RuleSet :=
  let rec loop (rs : RuleSet) (l : Option RuleInterface) : List RuleInterface → RuleSet
    | [] => applicableRules
    | r :: rest =>
        if l.any (fun l => decide (r.priority > l.priority) && !l.hasWhereClause) then rs
        else loop (rs.insert r ()) (some r) rest
  loop ∅ none applicableRules.keys

/-- A begin adds an allowed rule to the active ones, an end removes it. -/
def activate (allowedRules : RuleSet) (rd : RuleDescriptor) (activeRules : RuleSet) : RuleSet :=
  if rd.rule ∈ allowedRules then
    match rd.type with
    | .RULE_BEGIN => activeRules.insert rd.rule ()
    | .RULE_END => activeRules.erase rd.rule
  else activeRules

/-- The loop of `constructFrom`: the chain of the nodes that get finalized, from the one that
    starts at `currentPos`.  `finish` gives the rules and the next dimension of a node. -/
def sweep (allowedRules : RuleSet) (finish : RuleSet → RuleSet × ChoiceGridPtr) :
    Int → RuleSet → RuleDescriptorList → ChoiceGridPtr
  | _, _, [] => .null
  | currentPos, activeRules, rd :: rest =>
      if rd.formula = currentPos then
        sweep allowedRules finish currentPos (activate allowedRules rd activeRules) rest
      else
        .node currentPos (some rd.formula) (finish activeRules).1
          (sweep allowedRules finish rd.formula (activate allowedRules rd activeRules) rest)
          (finish activeRules).2

/-- `constructFrom(allowedRules, dimensions)`; `prior` is what becomes of the rules of a node
    of the last dimension, `applyRulePriorities` in the code.  A root that is never finalized
    has no end and no rules. -/
def constructFrom (prior : RuleSet → RuleSet) :
    List RuleDescriptorList → RuleSet → ChoiceGridPtr
  | [], allowedRules => .node 0 (some 1) (prior allowedRules) .null .null
  | boundaries :: dimensions, allowedRules =>
      match sweep allowedRules
          (fun activeRules =>
            if dimensions.isEmpty then (prior activeRules, .null)
            else (activeRules, constructFrom prior dimensions activeRules))
          0 ∅ boundaries with
      | .null => .node 0 none ∅ .null .null
      | rootNode => rootNode

/-- An entry of a `ChoiceGridIndex`: a region, by its begin and end in each dimension, and the
    rules listed for it. -/
structure Segment where
  region : List (Int × Option Int)
  rules : RuleSet
  deriving DecidableEq

/-- `buildIndex(idx, prefix)`. -/
def buildIndex : ChoiceGridPtr → List (Int × Option Int) → List Segment
  | .null, _ => []
  | .node b e applicableRules nextElement nextDimension, pre =>
      (if nextDimension.isNull then [⟨pre ++ [(b, e)], applicableRules⟩]
        else buildIndex nextDimension (pre ++ [(b, e)])) ++
      buildIndex nextElement pre

/-- The corners of the region of the matrix that each rule provides. -/
structure ApplicableRegions where
  minCoord : RuleInterface → Nat → Int
  maxCoord : RuleInterface → Nat → Int

namespace ApplicableRegions

variable (R : ApplicableRegions)

def getApplicableRegionDescriptors (dimension : Nat) (rule : RuleInterface) :
    RuleDescriptorList :=
  [⟨.RULE_BEGIN, rule, R.minCoord rule dimension⟩, ⟨.RULE_END, rule, R.maxCoord rule dimension⟩]

/-- The boundaries of the allowed rules, sorted by `sort`. -/
def boundaries (sort : RuleDescriptorList → RuleDescriptorList) (allowed : RuleSet)
    (numDimensions : Nat) : List RuleDescriptorList :=
  (List.range numDimensions).map
    (fun d => sort (allowed.keys.flatMap (R.getApplicableRegionDescriptors d)))

/-- The choice grid of a matrix. -/
def fillBaseCases (sort : RuleDescriptorList → RuleDescriptorList)
    (prior : RuleSet → RuleSet) (allowed : RuleSet) (numDimensions : Nat) : List Segment :=
  let tmp := constructFrom prior (R.boundaries sort allowed numDimensions) allowed
  if numDimensions > 0 then buildIndex tmp [] else [⟨[], tmp.rules⟩]

end ApplicableRegions

/-! ## The segments of one dimension -/

/-- A segment of one dimension and the rules active in it. -/
structure Element where
  lo : Int
  hi : Int
  active : RuleSet

/-- The segments a sweep closes. -/
def elements (allowedRules : RuleSet) : Int → RuleSet → RuleDescriptorList → List Element
  | _, _, [] => []
  | currentPos, activeRules, rd :: rest =>
      if rd.formula = currentPos then
        elements allowedRules currentPos (activate allowedRules rd activeRules) rest
      else
        ⟨currentPos, rd.formula, activeRules⟩ ::
          elements allowedRules rd.formula (activate allowedRules rd activeRules) rest

/-- The last boundary of a dimension. -/
def lastBoundary (bs : RuleDescriptorList) : Int := (bs.getLast?.map RuleDescriptor.formula).getD 0

/-- Boundaries in ascending order. -/
def Ascending (bs : RuleDescriptorList) : Prop :=
  bs.Pairwise (fun a b => a.formula ≤ b.formula)

/-- **THE SEGMENTS LIE END TO END** up to the last boundary. -/
theorem elements_tiles {allowed active : RuleSet} {pos : Int} {bs : RuleDescriptorList}
    (hasc : Ascending bs) (hpos : ∀ rd ∈ bs, pos ≤ rd.formula) :
    Tiles Element.lo Element.hi pos (elements allowed pos active bs)
      ((bs.getLast?.map RuleDescriptor.formula).getD pos) := by
  induction bs generalizing pos active with
  | nil => rfl
  | cons rd rest ih =>
      obtain ⟨hle, hrest⟩ := List.pairwise_cons.mp hasc
      have ih : Tiles Element.lo Element.hi rd.formula
          (elements allowed rd.formula (activate allowed rd active) rest)
          ((rest.getLast?.map RuleDescriptor.formula).getD rd.formula) := ih hrest hle
      have hlast : (((rd :: rest).getLast?.map RuleDescriptor.formula).getD pos) =
          (rest.getLast?.map RuleDescriptor.formula).getD rd.formula := by
        rw [List.getLast?_cons]
        cases rest.getLast? <;> rfl
      rw [hlast, elements]
      by_cases heq : rd.formula = pos
      · rw [if_pos heq]
        rw [heq] at ih ⊢
        exact ih
      · rw [if_neg heq]
        exact ⟨rfl, hpos rd List.mem_cons_self, ih⟩

/-! ## The active rules -/

theorem mem_activate {allowed active : RuleSet} {rd : RuleDescriptor} {r : RuleInterface} :
    r ∈ activate allowed rd active ↔
      if rd.rule = r ∧ r ∈ allowed then rd.type = .RULE_BEGIN else r ∈ active := by
  rw [activate]
  by_cases ha : rd.rule ∈ allowed
  · rw [if_pos ha]
    by_cases hr : rd.rule = r
    · subst hr
      rw [if_pos ⟨rfl, ha⟩]
      cases rd.type
      · simp [OrderedMap.mem_insert]
      · simp [OrderedMap.mem_erase]
    · rw [if_neg (fun h => hr h.1)]
      cases rd.type
      · simp [OrderedMap.mem_insert, Ne.symm hr]
      · simp [OrderedMap.mem_erase, Ne.symm hr]
  · rw [if_neg ha, if_neg (fun h : rd.rule = r ∧ r ∈ allowed => ha (h.1.symm ▸ h.2))]

/-- Only allowed rules become active. -/
theorem activate_subset {allowed active : RuleSet} {rd : RuleDescriptor}
    (h : ∀ r ∈ active, r ∈ allowed) : ∀ r ∈ activate allowed rd active, r ∈ allowed := by
  intro r hr
  rw [mem_activate] at hr
  by_cases hc : rd.rule = r ∧ r ∈ allowed
  · exact hc.2
  · rw [if_neg hc] at hr
    exact h r hr

theorem elements_subset {allowed active : RuleSet} {pos : Int} {bs : RuleDescriptorList}
    (h : ∀ r ∈ active, r ∈ allowed) :
    ∀ el ∈ elements allowed pos active bs, ∀ r ∈ el.active, r ∈ allowed := by
  induction bs generalizing pos active with
  | nil =>
      intro el hel
      cases hel
  | cons rd rest ih =>
      intro el hel
      rw [elements] at hel
      by_cases heq : rd.formula = pos
      · rw [if_pos heq] at hel
        exact ih (activate_subset h) el hel
      · rw [if_neg heq] at hel
        rcases List.mem_cons.mp hel with rfl | hel
        · exact h
        · exact ih (activate_subset h) el hel

/-- The boundaries of `r` among `bs` are its begin `lo` and its end `hi`, both there. -/
structure Bounds (bs : RuleDescriptorList) (r : RuleInterface) (lo hi : Int) : Prop where
  begin_mem : ⟨.RULE_BEGIN, r, lo⟩ ∈ bs
  end_mem : ⟨.RULE_END, r, hi⟩ ∈ bs
  formula_eq : ∀ rd ∈ bs, rd.rule = r → rd.formula = if rd.type = .RULE_BEGIN then lo else hi

/-- After sweeping `done`, a rule is active while its begin is swept and its end is not. -/
def ActiveAfter (done : RuleDescriptorList) (r : RuleInterface) (lo hi : Int)
    (active : RuleSet) : Prop :=
  r ∈ active ↔ ⟨.RULE_BEGIN, r, lo⟩ ∈ done ∧ ⟨.RULE_END, r, hi⟩ ∉ done

/-- Sweeping one more boundary. -/
theorem ActiveAfter.step {done rest : RuleDescriptorList} {rd : RuleDescriptor}
    {r : RuleInterface} {lo hi : Int} {allowed active : RuleSet} (hr : r ∈ allowed)
    (hne : lo < hi) (hbounds : Bounds (done ++ rd :: rest) r lo hi)
    (hdone : ∀ rd' ∈ done, rd'.formula ≤ rd.formula)
    (h : ActiveAfter done r lo hi active) :
    ActiveAfter (done ++ [rd]) r lo hi (activate allowed rd active) := by
  rw [ActiveAfter, mem_activate]
  simp only [List.mem_append, List.mem_singleton]
  by_cases hrd : rd.rule = r
  · rw [if_pos ⟨hrd, hr⟩]
    have hf := hbounds.formula_eq rd (by simp) hrd
    cases htype : rd.type with
    | RULE_BEGIN =>
        rw [if_pos htype] at hf
        have hself : (⟨.RULE_BEGIN, r, lo⟩ : RuleDescriptor) = rd := by
          rw [← hrd, ← htype, ← hf]
        have hend : (⟨.RULE_END, r, hi⟩ : RuleDescriptor) ∉ done := by
          intro hmem
          have : hi ≤ rd.formula := hdone _ hmem
          omega
        have hother : (⟨.RULE_END, r, hi⟩ : RuleDescriptor) ≠ rd := by
          intro he
          rw [← he] at htype
          cases htype
        simp [hself, hend, hother]
    | RULE_END =>
        rw [if_neg (by rw [htype]; decide)] at hf
        have hself : (⟨.RULE_END, r, hi⟩ : RuleDescriptor) = rd := by
          rw [← hrd, ← htype, ← hf]
        simp [hself]
  · rw [if_neg (fun hc => hrd hc.1), iff_iff_eq.mp h]
    have hb : (⟨.RULE_BEGIN, r, lo⟩ : RuleDescriptor) ≠ rd := fun he => hrd (by rw [← he])
    have hend : (⟨.RULE_END, r, hi⟩ : RuleDescriptor) ≠ rd := fun he => hrd (by rw [← he])
    simp [hb, hend]

/-- **A RULE IS ACTIVE IN THE SEGMENTS ITS INTERVAL CONTAINS**, if the interval is nonempty. -/
theorem mem_active_iff {allowed : RuleSet} {r : RuleInterface} {lo hi : Int}
    (hr : r ∈ allowed) (hne : lo < hi) :
    ∀ {bs done : RuleDescriptorList} {pos : Int} {active : RuleSet},
      Bounds (done ++ bs) r lo hi → Ascending bs → (∀ rd ∈ bs, pos ≤ rd.formula) →
      (∀ rd ∈ done, rd.formula ≤ pos) → ActiveAfter done r lo hi active →
      ∀ el ∈ elements allowed pos active bs, r ∈ el.active ↔ lo ≤ el.lo ∧ el.hi ≤ hi := by
  intro bs
  induction bs with
  | nil =>
      intro done pos active _ _ _ _ _ el hel
      cases hel
  | cons rd rest ih =>
      intro done pos active hbounds hasc hpos hdone hactive
      obtain ⟨hle, hrest⟩ := List.pairwise_cons.mp hasc
      have hpos0 : pos ≤ rd.formula := hpos rd List.mem_cons_self
      have hdone' : ∀ rd' ∈ done, rd'.formula ≤ rd.formula :=
        fun rd' hrd' => le_trans (hdone rd' hrd') hpos0
      have hnext := hactive.step hr hne hbounds hdone'
      have hbounds' : Bounds ((done ++ [rd]) ++ rest) r lo hi := by
        rw [List.append_assoc]
        exact hbounds
      have hswept : ∀ rd' ∈ done ++ [rd], rd'.formula ≤ rd.formula := by
        intro rd' hrd'
        rcases List.mem_append.mp hrd' with h | h
        · exact hdone' rd' h
        · rw [List.mem_singleton.mp h]
      intro el hel
      rw [elements] at hel
      by_cases heq : rd.formula = pos
      · rw [if_pos heq, ← heq] at hel
        exact ih hbounds' hrest hle hswept hnext el hel
      · rw [if_neg heq] at hel
        rcases List.mem_cons.mp hel with rfl | hel
        · -- `done` lies at or below the segment, the rest at or above its end
          have hcut : ∀ rd' ∈ rd :: rest, rd.formula ≤ rd'.formula := by
            intro rd' hrd'
            rcases List.mem_cons.mp hrd' with rfl | h
            · exact le_refl _
            · exact hle rd' h
          have hb := List.mem_append.mp hbounds.begin_mem
          have he := List.mem_append.mp hbounds.end_mem
          refine hactive.trans (and_congr ?_ ?_)
          · constructor
            · exact fun h => hdone _ h
            · intro h
              refine hb.resolve_right ?_
              intro hmem
              have h1 : rd.formula ≤ lo := hcut _ hmem
              have h2 : lo ≤ pos := h
              omega
          · constructor
            · exact fun h => hcut _ (he.resolve_left h)
            · intro h hmem
              have h1 : hi ≤ pos := hdone _ hmem
              have h2 : rd.formula ≤ hi := h
              omega
        · exact ih hbounds' hrest hle hswept hnext el hel

/-! ## The nested cut -/

/-- Put the side of an element in front of a segment. -/
def Element.glue (el : Element) (s : Segment) : Segment :=
  ⟨(el.lo, some el.hi) :: s.region, s.rules⟩

/-- The segments of the grid.  A dimension without a segment leaves one that never ends. -/
def index (prior : RuleSet → RuleSet) : List RuleDescriptorList → RuleSet → List Segment
  | [], allowed => [⟨[], prior allowed⟩]
  | boundaries :: dimensions, allowed =>
      match elements allowed 0 ∅ boundaries with
      | [] => [⟨[(0, none)], ∅⟩]
      | els => els.flatMap (fun el => (index prior dimensions el.active).map el.glue)

theorem isNull_constructFrom (prior : RuleSet → RuleSet) (dims : List RuleDescriptorList)
    (allowed : RuleSet) : (constructFrom prior dims allowed).isNull = false := by
  cases dims with
  | nil => rfl
  | cons boundaries dims =>
      rw [constructFrom]
      split
      · rfl
      · rename_i hnull
        revert hnull
        cases sweep allowed _ 0 ∅ boundaries with
        | null => exact fun h => absurd rfl h
        | node => exact fun _ => rfl

/-- A sweep finalizes a node exactly when it closes a segment. -/
theorem sweep_eq_null_iff {allowed active : RuleSet} {finish : RuleSet → RuleSet × ChoiceGridPtr}
    {pos : Int} {bs : RuleDescriptorList} :
    sweep allowed finish pos active bs = .null ↔ elements allowed pos active bs = [] := by
  induction bs generalizing pos active with
  | nil => simp [sweep, elements]
  | cons rd rest ih =>
      rw [sweep, elements]
      split
      · exact ih
      · simp

/-- What `buildIndex` lists of a chain: each element with its own part of the grid. -/
theorem buildIndex_sweep {allowed active : RuleSet} {finish : RuleSet → RuleSet × ChoiceGridPtr}
    {pos : Int} {bs : RuleDescriptorList} {pre : List (Int × Option Int)} :
    buildIndex (sweep allowed finish pos active bs) pre =
      (elements allowed pos active bs).flatMap (fun el =>
        if (finish el.active).2.isNull then
          [⟨pre ++ [(el.lo, some el.hi)], (finish el.active).1⟩]
        else buildIndex (finish el.active).2 (pre ++ [(el.lo, some el.hi)])) := by
  induction bs generalizing pos active with
  | nil => rfl
  | cons rd rest ih =>
      rw [sweep, elements]
      split
      · exact ih
      · rw [buildIndex, ih, List.flatMap_cons]

/-- **THE GRID IS THE NESTED CUT**, below any prefix. -/
theorem buildIndex_constructFrom (prior : RuleSet → RuleSet) {dims : List RuleDescriptorList}
    (hdims : dims ≠ []) (allowed : RuleSet) (pre : List (Int × Option Int)) :
    buildIndex (constructFrom prior dims allowed) pre =
      (index prior dims allowed).map (fun s => ⟨pre ++ s.region, s.rules⟩) := by
  induction dims generalizing allowed pre with
  | nil => exact absurd rfl hdims
  | cons boundaries dims ih =>
      rw [constructFrom, index]
      cases hels : elements allowed 0 ∅ boundaries with
      | nil =>
          rw [sweep_eq_null_iff.mpr hels]
          rfl
      | cons el els =>
          have hroot : ∀ g : ChoiceGridPtr, g ≠ .null →
              (match g with
                | .null => ChoiceGridPtr.node 0 none ∅ .null .null
                | rootNode => rootNode) = g := by
            intro g hg
            cases g with
            | null => exact absurd rfl hg
            | node => rfl
          have hne : ∀ finish, sweep allowed finish 0 ∅ boundaries ≠ .null := by
            intro finish hnull
            rw [sweep_eq_null_iff.mp hnull] at hels
            cases hels
          rw [hroot _ (hne _), buildIndex_sweep, hels, List.map_flatMap]
          congr 1
          funext el
          cases dims with
          | nil => simp [ChoiceGridPtr.isNull, index, Element.glue]
          | cons next rest =>
              have hnull := isNull_constructFrom prior (next :: rest) el.active
              simp only [List.isEmpty_cons, Bool.false_eq_true, if_false, hnull]
              rw [ih (List.cons_ne_nil _ _), List.map_map]
              apply List.map_congr_left
              intro s _
              simp [Element.glue]

/-- The cells of a region; one with a null end has none. -/
def regionCells : List (Int × Option Int) → Set (List Int)
  | [] => {[]}
  | s :: region =>
      Set.image2 List.cons {x | s.1 ≤ x ∧ ∃ e ∈ s.2, x < e} (regionCells region)

def Segment.cells (s : Segment) : Set (List Int) := regionCells s.region

/-- Sorted boundaries, none below zero. -/
structure Swept (bs : RuleDescriptorList) : Prop where
  ascending : Ascending bs
  nonneg : ∀ rd ∈ bs, 0 ≤ rd.formula

theorem Swept.tiles {bs : RuleDescriptorList} (h : Swept bs) (allowed : RuleSet) :
    Tiles Element.lo Element.hi 0 (elements allowed 0 ∅ bs) (lastBoundary bs) :=
  elements_tiles h.ascending h.nonneg

/-- No boundary lies above the last one. -/
theorem Swept.le_lastBoundary {bs : RuleDescriptorList} (h : Swept bs) {rd : RuleDescriptor}
    (hrd : rd ∈ bs) : rd.formula ≤ lastBoundary bs := by
  have hne : bs ≠ [] := List.ne_nil_of_mem hrd
  rw [lastBoundary, List.getLast?_eq_some_getLast hne]
  exact h.ascending.rel_getLast_of_rel_getLast_getLast hrd (le_refl _)

/-- The space a grid cuts: each dimension from 0 to its last boundary. -/
def space (dims : List RuleDescriptorList) : List (Int × Int) :=
  dims.map (fun bs => (0, lastBoundary bs))

theorem index_partitions (prior : RuleSet → RuleSet) {dims : List RuleDescriptorList}
    (h : ∀ bs ∈ dims, Swept bs) (allowed : RuleSet) :
    Partitions Segment.cells (index prior dims allowed) (box (space dims)) := by
  induction dims generalizing allowed with
  | nil =>
      constructor
      · exact List.pairwise_singleton _ _
      · intro x
        simp [index, Segment.cells, regionCells, space, box]
  | cons bs dims ih =>
      obtain ⟨hbs, hdims⟩ := List.forall_mem_cons.mp h
      have htiles := hbs.tiles allowed
      rw [index]
      split
      · -- nothing between 0 and the last boundary, and nothing in the segment
        rename_i hels
        rw [hels] at htiles
        have hlast : lastBoundary bs = 0 := Eq.symm htiles
        constructor
        · exact List.pairwise_singleton _ _
        · intro x
          simp [Segment.cells, regionCells, space, box, hlast]
      · refine htiles.partitions.product (fun el _ => ih hdims el.active) ?_
        intro el s
        have hside : {x | el.lo ≤ x ∧ ∃ e ∈ some el.hi, x < e} = Set.Ico el.lo el.hi := by
          ext x
          simp
        rw [Segment.cells, Element.glue, regionCells, hside]
        rfl

/-! ## The rules of a segment -/

/-- The interval from `lo` to `hi` in each dimension, from dimension `i` on, contains the
    region. -/
def ContainsFrom (lo hi : Nat → Int) (i : Nat) (region : List (Int × Option Int)) : Prop :=
  ∀ (d : Nat) (b : Int) (e : Option Int), region[d]? = some (b, e) →
    lo (i + d) ≤ b ∧ ∃ e' ∈ e, e' ≤ hi (i + d)

theorem containsFrom_cons {lo hi : Nat → Int} {i : Nat} {b e : Int}
    {region : List (Int × Option Int)} :
    ContainsFrom lo hi i ((b, some e) :: region) ↔
      (lo i ≤ b ∧ e ≤ hi i) ∧ ContainsFrom lo hi (i + 1) region := by
  constructor
  · intro h
    constructor
    · obtain ⟨hb, e', he', hle⟩ := h 0 b (some e) rfl
      obtain rfl := Option.some.inj he'
      exact ⟨hb, hle⟩
    · intro d b' e' hget
      rw [Nat.add_assoc, Nat.add_comm 1 d]
      exact h (d + 1) b' e' hget
  · rintro ⟨⟨hb, he⟩, h⟩ d b' e' hget
    cases d with
    | zero =>
        obtain ⟨rfl, rfl⟩ := Prod.mk.inj (Option.some.inj hget)
        exact ⟨hb, e, rfl, he⟩
    | succ d =>
        rw [Nat.add_comm d 1, ← Nat.add_assoc]
        exact h d b' e' hget

/-- The grid lists allowed rules only. -/
theorem index_subset {dims : List RuleDescriptorList} {allowed : RuleSet} :
    ∀ s ∈ index id dims allowed, ∀ r ∈ s.rules, r ∈ allowed := by
  induction dims generalizing allowed with
  | nil =>
      intro s hs r hr
      rw [List.mem_singleton.mp hs] at hr
      exact hr
  | cons bs dims ih =>
      intro s hs r hr
      rw [index] at hs
      split at hs
      · rw [List.mem_singleton.mp hs] at hr
        cases hr
      · obtain ⟨el, hel, hs⟩ := List.mem_flatMap.mp hs
        obtain ⟨t, ht, rfl⟩ := List.mem_map.mp hs
        exact elements_subset (fun _ h => by cases h) el hel r (ih t ht r hr)

/-- **A RULE IS LISTED WHERE ITS REGION CONTAINS THE SEGMENT**, if its interval is nonempty in
    every dimension. -/
theorem mem_index_rules_iff {lo hi : Nat → Int} {r : RuleInterface} :
    ∀ {dims : List RuleDescriptorList} {i : Nat} {allowed : RuleSet},
      (∀ bs ∈ dims, Swept bs) →
      (∀ d bs, dims[d]? = some bs → Bounds bs r (lo (i + d)) (hi (i + d))) →
      (∀ d, d < dims.length → lo (i + d) < hi (i + d)) → r ∈ allowed →
      ∀ s ∈ index id dims allowed, r ∈ s.rules ↔ ContainsFrom lo hi i s.region := by
  intro dims
  induction dims with
  | nil =>
      intro i allowed _ _ _ hr s hs
      rw [List.mem_singleton.mp hs]
      refine iff_of_true hr ?_
      intro d b e hget
      cases hget
  | cons bs dims ih =>
      intro i allowed hswept hbounds hne hr s hs
      obtain ⟨hbs, hdims⟩ := List.forall_mem_cons.mp hswept
      have hb : Bounds bs r (lo i) (hi i) := hbounds 0 bs rfl
      have hlt : lo i < hi i := hne 0 (by simp)
      rw [index] at hs
      split at hs
      · -- a nonempty interval closes a segment
        rename_i hels
        have htiles := hbs.tiles allowed
        rw [hels] at htiles
        have hlast : 0 = lastBoundary bs := htiles
        have hlo : 0 ≤ lo i := hbs.nonneg _ hb.begin_mem
        have hhi : hi i ≤ lastBoundary bs := hbs.le_lastBoundary hb.end_mem
        omega
      · obtain ⟨el, hel, hs⟩ := List.mem_flatMap.mp hs
        obtain ⟨t, ht, rfl⟩ := List.mem_map.mp hs
        have hactive : r ∈ el.active ↔ lo i ≤ el.lo ∧ el.hi ≤ hi i :=
          @mem_active_iff allowed r (lo i) (hi i) hr hlt bs [] 0 ∅ hb hbs.ascending hbs.nonneg
            (by simp) (iff_of_false (fun h => by cases h) (by simp)) el hel
        rw [Element.glue, containsFrom_cons, ← hactive]
        by_cases hmem : r ∈ el.active
        · rw [and_iff_right hmem]
          refine ih hdims ?_ ?_ hmem t ht
          · intro d bs' hget
            rw [Nat.add_assoc, Nat.add_comm 1 d]
            exact hbounds (d + 1) bs' hget
          · intro d hd
            rw [Nat.add_assoc, Nat.add_comm 1 d]
            exact hne (d + 1) (Nat.succ_lt_succ hd)
        · refine iff_of_false ?_ (fun h => hmem h.1)
          exact fun h => hmem (index_subset t ht r h)

/-! ## The ends of the segments -/

/-- Where every dimension has a boundary above 0, every segment has an end in each. -/
theorem index_ends {prior : RuleSet → RuleSet} {dims : List RuleDescriptorList}
    (h : ∀ bs ∈ dims, Swept bs) (hpos : ∀ bs ∈ dims, 0 < lastBoundary bs)
    {allowed : RuleSet} :
    ∀ s ∈ index prior dims allowed,
      s.region.length = dims.length ∧ ∀ side ∈ s.region, side.2 ≠ none := by
  induction dims generalizing allowed with
  | nil =>
      intro s hs
      rw [List.mem_singleton.mp hs]
      exact ⟨rfl, fun side hside => by cases hside⟩
  | cons bs dims ih =>
      obtain ⟨hbs, hdims⟩ := List.forall_mem_cons.mp h
      obtain ⟨hlast, hrest⟩ := List.forall_mem_cons.mp hpos
      intro s hs
      rw [index] at hs
      split at hs
      · rename_i hels
        have htiles := hbs.tiles allowed
        rw [hels] at htiles
        have hzero : 0 = lastBoundary bs := htiles
        omega
      · obtain ⟨el, hel, hs⟩ := List.mem_flatMap.mp hs
        obtain ⟨t, ht, rfl⟩ := List.mem_map.mp hs
        obtain ⟨hlen, hends⟩ := ih hdims hrest t ht
        constructor
        · rw [Element.glue, List.length_cons, List.length_cons, hlen]
        · intro side hside
          rcases List.mem_cons.mp hside with rfl | hside
          · exact Option.some_ne_none _
          · exact hends side hside

/-! ## The grid of a matrix -/

namespace ApplicableRegions

variable (R : ApplicableRegions) {sort : RuleDescriptorList → RuleDescriptorList}

/-- What `std::sort` promises: the same descriptors, none before one that is less. -/
def Sorts (sort : RuleDescriptorList → RuleDescriptorList) : Prop :=
  ∀ l, (sort l).Perm l ∧ (sort l).Pairwise (fun a b => b.lt a = false)

/-- Every region begins at 0 or above and no later than it ends. -/
def InBounds (allowed : RuleSet) (numDimensions : Nat) : Prop :=
  ∀ r ∈ allowed, ∀ d < numDimensions, 0 ≤ R.minCoord r d ∧ R.minCoord r d ≤ R.maxCoord r d

theorem fillBaseCases_eq (prior : RuleSet → RuleSet) (allowed : RuleSet) (n : Nat) :
    R.fillBaseCases sort prior allowed n = index prior (R.boundaries sort allowed n) allowed := by
  rw [fillBaseCases]
  cases n with
  | zero => rfl
  | succ n =>
      rw [if_pos (Nat.succ_pos n), buildIndex_constructFrom]
      · simp
      · simp [boundaries]

/-- Of two sorted boundaries the first is no higher. -/
theorem le_of_not_lt {a b : RuleDescriptor} (hb : 0 ≤ b.formula)
    (h : b.lt a = false) : a.formula ≤ b.formula := by
  by_contra hlt
  have hless : b.lt a = true := lt_iff.mpr (.inr ⟨by omega, .inr ⟨by omega, by omega⟩⟩)
  rw [hless] at h
  cases h

/-- The boundaries of a dimension are those of the allowed rules. -/
theorem mem_boundaries (hsort : Sorts sort) {allowed : RuleSet} {n d : Nat}
    {bs : RuleDescriptorList} (hbs : (R.boundaries sort allowed n)[d]? = some bs) :
    d < n ∧ ∀ rd, rd ∈ bs ↔ rd.rule ∈ allowed ∧ rd.formula =
      if rd.type = .RULE_BEGIN then R.minCoord rd.rule d else R.maxCoord rd.rule d := by
  rw [boundaries, List.getElem?_map, Option.map_eq_some_iff] at hbs
  obtain ⟨d', hd', rfl⟩ := hbs
  obtain ⟨hd, hdd⟩ := List.getElem?_eq_some_iff.mp hd'
  rw [List.getElem_range] at hdd
  subst hdd
  rw [List.length_range] at hd
  refine ⟨hd, ?_⟩
  intro rd
  rw [(hsort _).1.mem_iff, List.mem_flatMap]
  constructor
  · rintro ⟨r, hr, hrd⟩
    rw [getApplicableRegionDescriptors, List.mem_pair] at hrd
    rcases hrd with rfl | rfl
    · exact ⟨OrderedMap.mem_keys.mp hr, rfl⟩
    · exact ⟨OrderedMap.mem_keys.mp hr, rfl⟩
  · rintro ⟨hr, hf⟩
    refine ⟨rd.rule, OrderedMap.mem_keys.mpr hr, ?_⟩
    rw [getApplicableRegionDescriptors, List.mem_pair]
    obtain ⟨type, rule, formula⟩ := rd
    cases type with
    | RULE_BEGIN => exact .inl (by rw [show formula = _ from hf]; rfl)
    | RULE_END => exact .inr (by rw [show formula = _ from hf]; rfl)

theorem bounds_boundaries (hsort : Sorts sort) {allowed : RuleSet} {n d : Nat}
    {bs : RuleDescriptorList} (hbs : (R.boundaries sort allowed n)[d]? = some bs)
    {r : RuleInterface} (hr : r ∈ allowed) :
    Bounds bs r (R.minCoord r d) (R.maxCoord r d) where
  begin_mem := ((R.mem_boundaries hsort hbs).2 _).mpr ⟨hr, rfl⟩
  end_mem := ((R.mem_boundaries hsort hbs).2 _).mpr ⟨hr, rfl⟩
  formula_eq := by
    rintro rd hrd rfl
    exact (((R.mem_boundaries hsort hbs).2 rd).mp hrd).2

theorem swept_boundaries (hsort : Sorts sort) {allowed : RuleSet} {n : Nat}
    (hR : R.InBounds allowed n) : ∀ bs ∈ R.boundaries sort allowed n, Swept bs := by
  intro bs hbs
  obtain ⟨d, hd⟩ := List.mem_iff_getElem?.mp hbs
  obtain ⟨hdn, hmem⟩ := R.mem_boundaries hsort hd
  have hnonneg : ∀ rd ∈ bs, 0 ≤ rd.formula := by
    intro rd hrd
    obtain ⟨hr, hf⟩ := (hmem rd).mp hrd
    obtain ⟨h0, hle⟩ := hR rd.rule hr d hdn
    rw [hf]
    split
    · exact h0
    · exact le_trans h0 hle
  refine ⟨?_, hnonneg⟩
  obtain ⟨d', -, rfl⟩ := List.mem_map.mp hbs
  exact (hsort _).2.imp_of_mem
    (fun _ hb h => le_of_not_lt (hnonneg _ hb) h)

/-- **THE CHOICE GRID PARTITIONS THE MATRIX**: the segments are pairwise disjoint and tile each
    dimension from 0 to its last boundary, and before the priorities a rule with a nonempty
    interval in every dimension is listed exactly for the segments its region contains.  Only
    rules that can provide the matrix are listed.  Every segment has an end in every dimension
    once each has a boundary above 0. -/
theorem fillBaseCases_partitions (hsort : Sorts sort) (allowed : RuleSet) (n : Nat)
    (hR : R.InBounds allowed n) :
    (R.fillBaseCases sort id allowed n).Pairwise (fun s t => Disjoint s.cells t.cells) ∧
    (∀ x, (∃ s ∈ R.fillBaseCases sort id allowed n, x ∈ s.cells) ↔
      x ∈ box ((R.boundaries sort allowed n).map (fun bs => (0, lastBoundary bs)))) ∧
    (∀ s ∈ R.fillBaseCases sort id allowed n, ∀ r ∈ s.rules, r ∈ allowed) ∧
    (∀ s ∈ R.fillBaseCases sort id allowed n, ∀ r ∈ allowed,
      (∀ d < n, R.minCoord r d < R.maxCoord r d) →
        (r ∈ s.rules ↔ ContainsFrom (R.minCoord r) (R.maxCoord r) 0 s.region)) ∧
    ((∀ d < n, ∃ r ∈ allowed, 0 < R.maxCoord r d) →
      ∀ s ∈ R.fillBaseCases sort id allowed n,
        s.region.length = n ∧ ∀ side ∈ s.region, side.2 ≠ none) := by
  have hswept := R.swept_boundaries hsort hR
  have hlen : (R.boundaries sort allowed n).length = n := by simp [boundaries]
  rw [fillBaseCases_eq]
  obtain ⟨hdisjoint, hcover⟩ := index_partitions id hswept allowed
  refine ⟨hdisjoint, hcover, index_subset, ?_, ?_⟩
  · intro s hs r hr hne
    refine mem_index_rules_iff hswept ?_ ?_ hr s hs
    · intro d bs hbs
      rw [Nat.zero_add]
      exact R.bounds_boundaries hsort hbs hr
    · intro d hd
      rw [Nat.zero_add]
      exact hne d (hlen ▸ hd)
  · intro hpos s hs
    have hends := index_ends hswept ?_ s hs
    · rw [hlen] at hends
      exact hends
    · intro bs hbs
      obtain ⟨d, hd⟩ := List.mem_iff_getElem?.mp hbs
      obtain ⟨r, hr, hr0⟩ := hpos d (R.mem_boundaries hsort hd).1
      exact lt_of_lt_of_le hr0
        ((hswept bs hbs).le_lastBoundary (R.bounds_boundaries hsort hd hr).end_mem)

/-! ## Priorities -/

/-- The priorities act on the rules of each segment by themselves. -/
theorem index_prior {prior : RuleSet → RuleSet} (hprior : prior ∅ = ∅)
    {dims : List RuleDescriptorList} {allowed : RuleSet} :
    index prior dims allowed =
      (index id dims allowed).map (fun s => ⟨s.region, prior s.rules⟩) := by
  induction dims generalizing allowed with
  | nil => rfl
  | cons bs dims ih =>
      rw [index, index]
      split
      · simp [hprior]
      · rw [List.map_flatMap]
        congr 1
        funext el
        rw [ih, List.map_map, List.map_map]
        rfl

/-- **PRIORITIES COME LAST**: the grid of the code is the grid above with the priorities
    applied to the rules of each segment. -/
theorem fillBaseCases_priorities (allowed : RuleSet) (n : Nat) :
    R.fillBaseCases sort applyRulePriorities allowed n =
      (R.fillBaseCases sort id allowed n).map
        (fun s => ⟨s.region, applyRulePriorities s.rules⟩) := by
  rw [fillBaseCases_eq, fillBaseCases_eq]
  exact index_prior rfl

end ApplicableRegions

/-! ## A matrix with a border -/

/-- A sort that keeps its promise. -/
def insertionSort (l : RuleDescriptorList) : RuleDescriptorList :=
  l.insertionSort (fun a b => b.lt a = false)

theorem sorts_insertionSort : ApplicableRegions.Sorts insertionSort := by
  have htotal : Std.Total (fun a b : RuleDescriptor => b.lt a = false) := by
    constructor
    intro a b
    rw [← Bool.not_eq_true, ← Bool.not_eq_true, lt_iff, lt_iff]
    grind
  have htrans : IsTrans RuleDescriptor (fun a b => b.lt a = false) := by
    constructor
    intro a b c
    rw [← Bool.not_eq_true, ← Bool.not_eq_true, ← Bool.not_eq_true, lt_iff, lt_iff, lt_iff]
    cases a.type <;> cases b.type <;> cases c.type <;> simp <;> omega
  intro l
  exact ⟨List.perm_insertionSort _ l, List.pairwise_insertionSort _ l⟩

/-- A rule for the interior of a matrix and one, of a later priority, for all of it. -/
def interior : RuleInterface := ⟨0, 1, false⟩

def anywhere : RuleInterface := ⟨1, 2, false⟩

/-- `[1, 4)` and `[0, 5)`. -/
def border : ApplicableRegions where
  minCoord r _ := if r = interior then 1 else 0
  maxCoord r _ := if r = interior then 4 else 5

theorem fillBaseCases_partitions_border :
    let grid := border.fillBaseCases insertionSort id
      (OrderedMap.ofList [(interior, ()), (anywhere, ())]) 1
    grid.Pairwise (fun s t => Disjoint s.cells t.cells) ∧
    ∀ s ∈ grid, (interior ∈ s.rules ↔ ContainsFrom (fun _ => 1) (fun _ => 4) 0 s.region) := by
  have hR : border.InBounds (OrderedMap.ofList [(interior, ()), (anywhere, ())]) 1 := by
    intro r _ d _
    by_cases hr : r = interior <;> simp [border, hr]
  have h := border.fillBaseCases_partitions sorts_insertionSort _ 1 hR
  refine ⟨h.1, ?_⟩
  intro s hs
  exact h.2.2.2.1 s hs interior (by decide) (fun _ _ => by simp [border])

example : (border.fillBaseCases insertionSort applyRulePriorities
      (OrderedMap.ofList [(interior, ()), (anywhere, ())]) 1).map
        (fun s => (s.region, s.rules.keys)) =
    [([(0, some 1)], [anywhere]), ([(1, some 4)], [interior]), ([(4, some 5)], [anywhere])] := by
  decide

/-- The first segment starts at 0 even where the first boundary does not. -/
theorem first_segment_below_first_boundary :
    let grid := border.fillBaseCases insertionSort id (OrderedMap.ofList [(interior, ())]) 1
    (border.boundaries insertionSort (OrderedMap.ofList [(interior, ())]) 1).map
      (fun bs => bs.map RuleDescriptor.formula) = [[1, 4]] ∧
    ¬ ∀ x, (∃ s ∈ grid, x ∈ s.cells) ↔ x ∈ box [(1, 4)] := by
  refine ⟨by decide, ?_⟩
  intro h
  have hzero : [0] ∈ box [((1 : Int), (4 : Int))] := by
    refine (h [0]).mp ⟨⟨[(0, some 1)], ∅⟩, by decide, ?_⟩
    simp [Segment.cells, regionCells]
  simp [box] at hzero

end PbChoiceGrid
