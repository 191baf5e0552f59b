import PetaBricks.OrderedMapProofs
import Mathlib.Data.Set.Function
import Mathlib.Algebra.BigOperators.Group.List.Basic
import Mathlib.Algebra.Order.Ring.Nat

/-!
# Choice enumeration — an index of the choice space as a mixed-radix number

A `RuleChoiceCollection` lists the sites of a transform that choose among rules.  An index of
its choice space is decoded digit by digit: each site takes the index modulo the number of its
rules and hands the quotient on.  `pruneChoiceSpace` combines sites with equal rule sets; a
combined site consumes no digit and copies the choice of its representative by looking up the
corresponding rule.

The decoder is followed as a fold over the sites, so its correctness is one induction over a
suffix of the ordering (`assign_bijOn`): from any partial assignment the remaining indices are
in bijection with the ways to complete it.  What makes the lookup of a combined site succeed is
an invariant of the collection (`Declared`): the representative comes earlier and has the same
rules.  Adding sites and pruning keep it, in any order and any number of times.

`size` multiplies in `size_t`.  It is the number of assignments exactly as long as that number
is below 2^64 (`getAssignment_bijOn_iff`).
-/

namespace PbRuleChoice

open PbOrderedMap

variable {χ ρ : Type} [LinearOrder χ] [LinearOrder ρ]

/-- The rules a site can choose from, in priority order. -/
abbrev RuleSet (ρ : Type) [LinearOrder ρ] := OrderedSet ρ

/-- A rule for each site; nothing stands for the null rule. -/
abbrev RuleChoiceAssignment (χ ρ : Type) := χ → Option ρ

/-- The sites in the order they were added, and the representative of each combined site. -/
structure RuleChoiceCollection (χ : Type) [LinearOrder χ] where
  ordering : List χ
  invalidOrderings : List Nat
  combinedChoices : OrderedMap χ χ

namespace RuleChoiceCollection

/-! ## The collection -/

/-- An empty collection. -/
def empty : RuleChoiceCollection χ := ⟨[], [], ∅⟩

def addConsumer (t : RuleChoiceCollection χ) (i : χ) : RuleChoiceCollection χ :=
  { t with ordering := t.ordering ++ [i] }

def markInvalid (t : RuleChoiceCollection χ) (i : Nat) : RuleChoiceCollection χ :=
  { t with invalidOrderings := t.invalidOrderings ++ [i] }

/-- The number of choices of a site, at least one. -/
def radix (choices : χ → RuleSet ρ) (i : χ) : Nat := max 1 (choices i).keys.length

/-- The size of the choice space, computed in `size_t`. -/
def size (choices : χ → RuleSet ρ) (t : RuleChoiceCollection χ) : Nat :=
  t.ordering.foldl
    (fun c i => if i ∈ t.combinedChoices then c else c * radix choices i % 2 ^ 64) 1

/-- One step of the pruning loop: sites with at most one rule stay, the first site with a rule
    set represents it, later ones are combined with the first. -/
def pruneSite (choices : χ → RuleSet ρ)
    (s : List (RuleSet ρ × χ) × OrderedMap χ χ) (i : χ) :
    List (RuleSet ρ × χ) × OrderedMap χ χ :=
  let rs := choices i
  if rs.keys.length ≤ 1 then s
  else match s.1.find? (fun e => decide (e.1 = rs)) with
    | none => (s.1 ++ [(rs, i)], s.2)
    | some e => (s.1, s.2.insert i e.2)

/-- Combine choice sites with the same rule set. -/
def pruneChoiceSpace (choices : χ → RuleSet ρ) (t : RuleChoiceCollection χ) :
    RuleChoiceCollection χ :=
  { t with combinedChoices :=
      (t.ordering.foldl (pruneSite choices) ([], t.combinedChoices)).2 }

/-- The loop body of the decoder: the rest of the index and the assignment so far.  `none` is
    a failed assertion. -/
def assignSite (choices : χ → RuleSet ρ) (combined : OrderedMap χ χ)
    (s : Nat × RuleChoiceAssignment χ ρ) (i : χ) :
    Option (Nat × RuleChoiceAssignment χ ρ) :=
  let rs := (choices i).keys
  let a := Function.update s.2 i none
  match combined.find i with
  | none =>
      let rule := rs[s.1 % radix choices i]?
      if rs = [] ∨ rule ≠ none then
        some (s.1 / radix choices i, Function.update a i rule)
      else none
  | some site =>
      let rsb := (choices site).keys
      -- the corresponding rule in this choice site
      let rule := ((rs.zip rsb).find? (fun p => decide (some p.2 = a site))).map Prod.fst
      if rs.length = rsb.length ∧ (rs = [] ∨ rule ≠ none) then
        some (s.1, Function.update a i rule)
      else none

/-- Decode an index. -/
def getAssignment (choices : χ → RuleSet ρ) (t : RuleChoiceCollection χ) (choice : Nat) :
    Option (RuleChoiceAssignment χ ρ) :=
  (t.ordering.foldlM (assignSite choices t.combinedChoices) (choice, fun _ => none)).map
    Prod.snd

/-! ## Histories -/

/-- What is done to a collection. -/
inductive Op (χ : Type)
  | addConsumer (i : χ)
  | markInvalid (i : Nat)
  | pruneChoiceSpace

def apply (choices : χ → RuleSet ρ) (t : RuleChoiceCollection χ) :
    Op χ → RuleChoiceCollection χ
  | .addConsumer i => t.addConsumer i
  | .markInvalid i => t.markInvalid i
  | .pruneChoiceSpace => t.pruneChoiceSpace choices

/-- The collection after a history. -/
def run (choices : χ → RuleSet ρ) (ops : List (Op χ)) : RuleChoiceCollection χ :=
  ops.foldl (apply choices) empty

/-- The sites a history adds. -/
def added (ops : List (Op χ)) : List χ :=
  ops.filterMap (fun op => match op with
    | .addConsumer i => some i
    | _ => none)

/-! ## What the choices are -/

/-- An assignment gives every site one of its rules and combined sites the same rule. -/
structure Allowed (choices : χ → RuleSet ρ) (t : RuleChoiceCollection χ)
    (a : RuleChoiceAssignment χ ρ) : Prop where
  chosen : ∀ i ∈ t.ordering, ∃ r, a i = some r ∧ r ∈ choices i
  combined : ∀ i site, t.combinedChoices.find i = some site → a i = a site
  outside : ∀ i, i ∉ t.ordering → a i = none

/-- The number of indices the sites of a list consume. -/
def choiceCount (choices : χ → RuleSet ρ) (combined : OrderedMap χ χ) (l : List χ) : Nat :=
  (l.map (fun i => if i ∈ combined then 1 else radix choices i)).prod

/-- Every combined site of a list has its representative among the sites before it, with the
    same rules. -/
def Declared (choices : χ → RuleSet ρ) (combined : OrderedMap χ χ) :
    List χ → List χ → Prop
  | _, [] => True
  | before, i :: rest =>
      (∀ site, combined.find i = some site → site ∈ before ∧ choices site = choices i) ∧
        Declared choices combined (before ++ [i]) rest

theorem choiceCount_pos (choices : χ → RuleSet ρ) (combined : OrderedMap χ χ) (l : List χ) :
    0 < choiceCount choices combined l := by
  induction l with
  | nil => exact Nat.one_pos
  | cons i rest ih =>
      rw [choiceCount, List.map_cons, List.prod_cons]
      refine Nat.mul_pos ?_ ih
      by_cases h : i ∈ combined
      · rw [if_pos h]
        exact Nat.one_pos
      · rw [if_neg h, radix]
        omega

/-- `size` is the number of indices, in `size_t`. -/
theorem size_eq (choices : χ → RuleSet ρ) (t : RuleChoiceCollection χ) :
    size choices t = choiceCount choices t.combinedChoices t.ordering % 2 ^ 64 := by
  have hfold : ∀ (l : List χ) (c : Nat),
      l.foldl (fun c i => if i ∈ t.combinedChoices then c
        else c * radix choices i % 2 ^ 64) (c % 2 ^ 64) =
        c * choiceCount choices t.combinedChoices l % 2 ^ 64 := by
    intro l
    induction l with
    | nil =>
        intro c
        rw [choiceCount, List.map_nil, List.prod_nil, Nat.mul_one]
        rfl
    | cons i rest ih =>
        intro c
        rw [List.foldl_cons, choiceCount, List.map_cons, List.prod_cons]
        by_cases h : i ∈ t.combinedChoices
        · rw [if_pos h, if_pos h, Nat.one_mul]
          exact ih c
        · rw [if_neg h, if_neg h, Nat.mod_mul_mod, ih, ← Nat.mul_assoc]
          rfl
  have := hfold t.ordering 1
  rw [Nat.one_mul] at this
  exact this

/-! ## The corresponding rule of a combined site -/

/-- In two copies of one rule set the corresponding rule is the rule itself. -/
theorem find_zip_self {l : List ρ} {r : ρ} (hr : r ∈ l) :
    ((l.zip l).find? (fun p => decide (some p.2 = some r))).map Prod.fst = some r := by
  induction l with
  | nil => exact absurd hr List.not_mem_nil
  | cons x rest ih =>
      rw [List.zip_cons_cons, List.find?_cons]
      by_cases hx : x = r
      · subst hx
        simp
      · have hne : decide (some x = some r) = false := by simpa using hx
        rw [hne]
        exact ih (List.mem_of_ne_of_mem (fun h => hx h.symm) hr)

/-- A combined site takes over the rule of its representative. -/
theorem assignSite_combined {choices : χ → RuleSet ρ} {combined : OrderedMap χ χ}
    {n : Nat} {a : RuleChoiceAssignment χ ρ} {i site : χ} {r : ρ}
    (hc : combined.find i = some site) (hsame : choices site = choices i) (hne : site ≠ i)
    (ha : a site = some r) (hr : r ∈ choices site) :
    assignSite choices combined (n, a) i = some (n, Function.update a i (some r)) := by
  have hmem : r ∈ (choices i).keys := OrderedMap.mem_keys.mpr (hsame ▸ hr)
  rw [assignSite]
  simp only [hc, hsame, Function.update_of_ne hne, ha, find_zip_self hmem,
    Function.update_idem]
  simp

/-- A site of its own takes a digit of the index. -/
theorem assignSite_own {choices : χ → RuleSet ρ} {combined : OrderedMap χ χ}
    {n : Nat} {a : RuleChoiceAssignment χ ρ} {i : χ} (hc : combined.find i = none)
    (hne : (choices i).keys ≠ []) :
    ∃ h : n % radix choices i < (choices i).keys.length,
      assignSite choices combined (n, a) i =
        some (n / radix choices i,
          Function.update a i (some ((choices i).keys.get ⟨n % radix choices i, h⟩))) := by
  have hlen : 0 < (choices i).keys.length := List.length_pos_iff.mpr hne
  have hradix : radix choices i = (choices i).keys.length := max_eq_right hlen
  have h : n % radix choices i < (choices i).keys.length := by
    rw [hradix]
    exact Nat.mod_lt _ hlen
  refine ⟨h, ?_⟩
  rw [assignSite]
  simp only [hc, List.getElem?_eq_getElem h, Function.update_idem]
  simp

/-! ## Decoding completes a partial assignment -/

/-- How an assignment continues another one on the sites of a list. -/
structure Extends (choices : χ → RuleSet ρ) (combined : OrderedMap χ χ) (l : List χ)
    (a a' : RuleChoiceAssignment χ ρ) : Prop where
  same : ∀ i, i ∉ l → a' i = a i
  chosen : ∀ i ∈ l, ∃ r, a' i = some r ∧ r ∈ choices i
  combined : ∀ i ∈ l, ∀ site, combined.find i = some site → a' i = a' site

/-- The decoder on the rest of the ordering. -/
def assign (choices : χ → RuleSet ρ) (combined : OrderedMap χ χ) (l : List χ)
    (a : RuleChoiceAssignment χ ρ) (n : Nat) : Option (RuleChoiceAssignment χ ρ) :=
  (l.foldlM (assignSite choices combined) (n, a)).map Prod.snd

theorem assign_cons {choices : χ → RuleSet ρ} {combined : OrderedMap χ χ} {i : χ}
    {rest : List χ} {a a' : RuleChoiceAssignment χ ρ} {n n' : Nat}
    (h : assignSite choices combined (n, a) i = some (n', a')) :
    assign choices combined (i :: rest) a n = assign choices combined rest a' n' := by
  rw [assign, List.foldlM_cons, h]
  rfl

/-- Continuing on `rest` after a site was given a rule is continuing on both, if the site was
    given an allowed rule. -/
theorem extends_cons {choices : χ → RuleSet ρ} {combined : OrderedMap χ χ} {i : χ}
    {rest : List χ} {a a' : RuleChoiceAssignment χ ρ} {r : ρ} (hi : i ∉ rest)
    (hr : r ∈ choices i)
    (hc : ∀ site, combined.find i = some site → site ∉ i :: rest ∧ a site = some r) :
    Extends choices combined rest (Function.update a i (some r)) a' ↔
      Extends choices combined (i :: rest) a a' ∧ a' i = some r := by
  constructor
  · intro h
    have hai : a' i = some r := by
      rw [h.same i hi, Function.update_self]
    refine ⟨⟨?_, ?_, ?_⟩, hai⟩
    · intro j hj
      have hne : j ≠ i := fun he => hj (he ▸ List.mem_cons_self)
      rw [h.same j (fun hm => hj (List.mem_cons_of_mem _ hm)), Function.update_of_ne hne]
    · intro j hj
      rcases List.mem_cons.mp hj with rfl | hj
      · exact ⟨r, hai, hr⟩
      · exact h.chosen j hj
    · intro j hj site hsite
      rcases List.mem_cons.mp hj with rfl | hj
      · obtain ⟨hout, has⟩ := hc site hsite
        have hne : site ≠ j := fun he => hout (he ▸ List.mem_cons_self)
        rw [hai, h.same site (fun hm => hout (List.mem_cons_of_mem _ hm)),
          Function.update_of_ne hne, has]
      · exact h.combined j hj site hsite
  · rintro ⟨h, hai⟩
    refine ⟨?_, fun j hj => h.chosen j (List.mem_cons_of_mem _ hj),
      fun j hj => h.combined j (List.mem_cons_of_mem _ hj)⟩
    intro j hj
    by_cases hji : j = i
    · subst hji
      rw [hai, Function.update_self]
    · rw [Function.update_of_ne hji]
      exact h.same j (fun hm => (List.mem_cons.mp hm).elim hji hj)

/-- The assignments that continue `a` on the sites of a list, as results of the decoder. -/
def completions (choices : χ → RuleSet ρ) (combined : OrderedMap χ χ) (l : List χ)
    (a : RuleChoiceAssignment χ ρ) : Set (Option (RuleChoiceAssignment χ ρ)) :=
  {o | ∃ a', o = some a' ∧ Extends choices combined l a a'}

/-- A combined site has no digit and exactly one allowed rule. -/
theorem bijOn_combined {choices : χ → RuleSet ρ} {combined : OrderedMap χ χ} {i site : χ}
    {rest : List χ} {a : RuleChoiceAssignment χ ρ} {r : ρ} (hi : i ∉ rest)
    (hc : combined.find i = some site) (hsame : choices site = choices i)
    (hout : site ∉ i :: rest) (har : a site = some r) (hr : r ∈ choices site)
    (hbij : Set.BijOn (assign choices combined rest (Function.update a i (some r)))
      {n | n < choiceCount choices combined rest}
      (completions choices combined rest (Function.update a i (some r)))) :
    Set.BijOn (assign choices combined (i :: rest) a)
      {n | n < choiceCount choices combined (i :: rest)}
      (completions choices combined (i :: rest) a) := by
  have hsi : site ≠ i := fun he => hout (he ▸ List.mem_cons_self)
  have hstep : ∀ n, assign choices combined (i :: rest) a n =
      assign choices combined rest (Function.update a i (some r)) n :=
    fun n => assign_cons (assignSite_combined hc hsame hsi har hr)
  have hcount : choiceCount choices combined (i :: rest) =
      choiceCount choices combined rest := by
    rw [choiceCount, List.map_cons, List.prod_cons,
      if_pos (OrderedMap.mem_iff.mpr ⟨site, hc⟩), Nat.one_mul]
    rfl
  have hext : ∀ a', Extends choices combined rest (Function.update a i (some r)) a' ↔
      Extends choices combined (i :: rest) a a' := by
    intro a'
    rw [extends_cons hi (hsame ▸ hr) (by
      intro s hs
      rw [hc] at hs
      exact Option.some.inj hs ▸ ⟨hout, har⟩)]
    constructor
    · exact fun h => h.1
    · intro h
      refine ⟨h, ?_⟩
      rw [h.combined i List.mem_cons_self site hc, h.same site hout, har]
  rw [hcount]
  simp only [completions, hext] at hbij
  exact hbij.congr (fun n _ => (hstep n).symm)

/-- A site of its own takes one digit, which tells its rules apart. -/
theorem bijOn_own {choices : χ → RuleSet ρ} {combined : OrderedMap χ χ} {i : χ}
    {rest : List χ} {a : RuleChoiceAssignment χ ρ} (hi : i ∉ rest)
    (hc : combined.find i = none) (hkeys : (choices i).keys ≠ [])
    (hbij : ∀ r, r ∈ choices i →
      Set.BijOn (assign choices combined rest (Function.update a i (some r)))
        {n | n < choiceCount choices combined rest}
        (completions choices combined rest (Function.update a i (some r)))) :
    Set.BijOn (assign choices combined (i :: rest) a)
      {n | n < choiceCount choices combined (i :: rest)}
      (completions choices combined (i :: rest) a) := by
  have hlen : 0 < (choices i).keys.length := List.length_pos_iff.mpr hkeys
  have hradix : radix choices i = (choices i).keys.length := max_eq_right hlen
  have hpos : 0 < radix choices i := hradix ▸ hlen
  have hcount : choiceCount choices combined (i :: rest) =
      radix choices i * choiceCount choices combined rest := by
    rw [choiceCount, List.map_cons, List.prod_cons, if_neg (OrderedMap.not_mem_iff.mpr hc)]
    rfl
  have hquot : ∀ n, n < choiceCount choices combined (i :: rest) →
      n / radix choices i < choiceCount choices combined rest :=
    fun n hn => Nat.div_lt_of_lt_mul (by rw [← hcount]; exact hn)
  have hext : ∀ (r : ρ) (_ : r ∈ choices i) (a' : RuleChoiceAssignment χ ρ),
      Extends choices combined rest (Function.update a i (some r)) a' ↔
        Extends choices combined (i :: rest) a a' ∧ a' i = some r := by
    intro r hr a'
    refine extends_cons hi hr ?_
    intro site hs
    rw [hc] at hs
    cases hs
  have hdigit : ∀ (k : Nat) (hk : k < (choices i).keys.length),
      (choices i).keys.get ⟨k, hk⟩ ∈ choices i :=
    fun k hk => OrderedMap.mem_keys.mp (List.get_mem _ _)
  refine ⟨?_, ?_, ?_⟩
  · intro n hn
    obtain ⟨hd, hstep⟩ := assignSite_own (n := n) (a := a) hc hkeys
    obtain ⟨a', ha', he⟩ := (hbij _ (hdigit _ hd)).mapsTo (hquot n hn)
    refine ⟨a', ?_, ((hext _ (hdigit _ hd) a').mp he).1⟩
    rw [assign_cons hstep]
    exact ha'
  · intro n hn m hm heq
    obtain ⟨hdn, hstepn⟩ := assignSite_own (n := n) (a := a) hc hkeys
    obtain ⟨hdm, hstepm⟩ := assignSite_own (n := m) (a := a) hc hkeys
    rw [assign_cons hstepn, assign_cons hstepm] at heq
    obtain ⟨an, han, hen⟩ := (hbij _ (hdigit _ hdn)).mapsTo (hquot n hn)
    obtain ⟨am, ham, hem⟩ := (hbij _ (hdigit _ hdm)).mapsTo (hquot m hm)
    have hsame : an = am := by
      rw [han, ham] at heq
      exact Option.some.inj heq
    -- the digits agree because the rule of `i` tells them apart
    have hin := ((hext _ (hdigit _ hdn) an).mp hen).2
    have him := ((hext _ (hdigit _ hdm) am).mp hem).2
    rw [hsame, him] at hin
    have hdig : m % radix choices i = n % radix choices i :=
      Fin.mk.inj_iff.mp ((choices i).keys_nodup.injective_get (Option.some.inj hin))
    have hrest : n / radix choices i = m / radix choices i := by
      apply (hbij _ (hdigit _ hdn)).injOn (hquot n hn) (hquot m hm)
      rw [heq]
      congr 4
    rw [← Nat.div_add_mod n (radix choices i), ← Nat.div_add_mod m (radix choices i),
      hdig, hrest]
  · rintro o ⟨a', rfl, he⟩
    obtain ⟨r, hai, hr⟩ := he.chosen i List.mem_cons_self
    obtain ⟨⟨k, hk⟩, hget⟩ := List.get_of_mem (OrderedMap.mem_keys.mpr hr)
    obtain ⟨q, hq, hqa⟩ := (hbij r hr).surjOn ⟨a', rfl, (hext r hr a').mpr ⟨he, hai⟩⟩
    have hkr : k < radix choices i := hradix ▸ hk
    have hdiv : (radix choices i * q + k) / radix choices i = q := by
      rw [Nat.mul_add_div hpos, Nat.div_eq_of_lt hkr, Nat.add_zero]
    have hmod : (radix choices i * q + k) % radix choices i = k := by
      rw [Nat.mul_add_mod, Nat.mod_eq_of_lt hkr]
    refine ⟨radix choices i * q + k, ?_, ?_⟩
    · change radix choices i * q + k < choiceCount choices combined (i :: rest)
      rw [hcount]
      have hq' : q + 1 ≤ choiceCount choices combined rest := hq
      have := Nat.mul_le_mul_left (radix choices i) hq'
      rw [Nat.mul_add, Nat.mul_one] at this
      omega
    · obtain ⟨hd, hstep⟩ :=
        assignSite_own (n := radix choices i * q + k) (a := a) hc hkeys
      have hsame : (choices i).keys.get
          ⟨(radix choices i * q + k) % radix choices i, hd⟩ = r := by
        rw [← hget]
        congr 1
        exact Fin.ext hmod
      rw [assign_cons hstep, hdiv, hsame]
      exact hqa

/-- **THE REMAINING INDICES ARE THE WAYS TO COMPLETE AN ASSIGNMENT**: from any assignment that
    gave the sites before allowed rules, decoding the rest is a bijection onto the assignments
    that continue it. -/
theorem assign_bijOn {choices : χ → RuleSet ρ} {combined : OrderedMap χ χ} (l : List χ)
    (before : List χ) (a : RuleChoiceAssignment χ ρ) (hnd : (before ++ l).Nodup)
    (hne : ∀ i ∈ l, (choices i).keys ≠ []) (hdecl : Declared choices combined before l)
    (hbefore : ∀ i ∈ before, ∃ r, a i = some r ∧ r ∈ choices i) :
    Set.BijOn (assign choices combined l a) {n | n < choiceCount choices combined l}
      (completions choices combined l a) := by
  induction l generalizing before a with
  | nil =>
      have hext : ∀ a', Extends choices combined [] a a' ↔ a' = a := by
        intro a'
        constructor
        · intro h
          funext i
          exact h.same i List.not_mem_nil
        · rintro rfl
          exact ⟨fun _ _ => rfl, fun i hi => absurd hi List.not_mem_nil,
            fun i hi => absurd hi List.not_mem_nil⟩
      refine ⟨?_, ?_, ?_⟩
      · intro n _
        exact ⟨a, rfl, (hext a).mpr rfl⟩
      · intro n hn m hm _
        have hn' : n < 1 := hn
        have hm' : m < 1 := hm
        omega
      · rintro o ⟨a', rfl, h⟩
        exact ⟨0, Nat.one_pos, by rw [(hext a').mp h]; rfl⟩
  | cons i rest ih =>
      obtain ⟨hrep, hrest⟩ := hdecl
      obtain ⟨_, hnd', hdisj⟩ := List.nodup_append.mp hnd
      have hi : i ∉ rest := (List.nodup_cons.mp hnd').1
      have hib : i ∉ before := fun hm => hdisj i hm i List.mem_cons_self rfl
      -- giving `i` an allowed rule leaves an assignment the rest can continue
      have hnext : ∀ r, r ∈ choices i →
          Set.BijOn (assign choices combined rest (Function.update a i (some r)))
            {n | n < choiceCount choices combined rest}
            (completions choices combined rest (Function.update a i (some r))) := by
        intro r hr
        refine ih (before ++ [i]) _ ?_ (fun j hj => hne j (List.mem_cons_of_mem _ hj)) hrest ?_
        · rw [List.append_assoc]
          exact hnd
        · intro j hj
          rcases List.mem_append.mp hj with hj | hj
          · have hji : j ≠ i := fun he => hib (he ▸ hj)
            rw [Function.update_of_ne hji]
            exact hbefore j hj
          · rw [List.mem_singleton.mp hj, Function.update_self]
            exact ⟨r, rfl, hr⟩
      cases hc : combined.find i with
      | some site =>
          obtain ⟨hsite, hsame⟩ := hrep site hc
          obtain ⟨r, har, hr⟩ := hbefore site hsite
          have hout : site ∉ i :: rest := fun hm => hdisj site hsite site hm rfl
          exact bijOn_combined hi hc hsame hout har hr (hnext r (hsame ▸ hr))
      | none => exact bijOn_own hi hc (hne i List.mem_cons_self) hnext

/-! ## Collections keep their representatives in front -/

/-- A site and the site it copies: with the same rules, and listed earlier. -/
structure Represents (choices : χ → RuleSet ρ) (ordering : List χ) (i site : χ) : Prop where
  listed : i ∈ ordering
  same : choices site = choices i
  earlier : ordering.idxOf site < ordering.idxOf i

/-- What every history keeps. -/
structure Inv (choices : χ → RuleSet ρ) (t : RuleChoiceCollection χ) : Prop where
  nodup : t.ordering.Nodup
  combined : ∀ i site, t.combinedChoices.find i = some site →
    Represents choices t.ordering i site

theorem Represents.snoc {choices : χ → RuleSet ρ} {ordering : List χ} {i site j : χ}
    (h : Represents choices ordering i site) : Represents choices (ordering ++ [j]) i site := by
  have hsite : site ∈ ordering :=
    List.idxOf_lt_length_iff.mp (h.earlier.trans (List.idxOf_lt_length_of_mem h.listed))
  refine ⟨List.mem_append_left _ h.listed, h.same, ?_⟩
  rw [List.idxOf_append_of_mem hsite, List.idxOf_append_of_mem h.listed]
  exact h.earlier

/-- The representatives come earlier in every suffix of the ordering. -/
theorem Inv.declared {choices : χ → RuleSet ρ} {t : RuleChoiceCollection χ}
    (h : Inv choices t) (l before : List χ) (heq : t.ordering = before ++ l) :
    Declared choices t.combinedChoices before l := by
  induction l generalizing before with
  | nil => trivial
  | cons i rest ih =>
      refine ⟨?_, ih (before ++ [i]) (by rw [heq, List.append_assoc]; rfl)⟩
      intro site hsite
      obtain ⟨_, hsame, hlt⟩ := h.combined i site hsite
      refine ⟨?_, hsame⟩
      by_contra hnot
      have hnd := h.nodup
      rw [heq] at hlt hnd
      have hi : i ∉ before :=
        fun hm => (List.nodup_append.mp hnd).2.2 i hm i List.mem_cons_self rfl
      rw [List.idxOf_append_of_notMem hnot, List.idxOf_append_of_notMem hi,
        List.idxOf_cons_self] at hlt
      omega

/-- One step of the pruning loop: it combines a site only with an earlier one that has the
    same rules. -/
theorem pruneSite_spec {choices : χ → RuleSet ρ} {ordering before rest : List χ} {i : χ}
    (heq : ordering = before ++ i :: rest) (hnd : ordering.Nodup)
    {s : List (RuleSet ρ × χ) × OrderedMap χ χ}
    (hs : ∀ e ∈ s.1, e.2 ∈ before ∧ choices e.2 = e.1)
    (hc : ∀ j site, s.2.find j = some site → Represents choices ordering j site) :
    (∀ e ∈ (pruneSite choices s i).1, e.2 ∈ before ++ [i] ∧ choices e.2 = e.1) ∧
      ∀ j site, (pruneSite choices s i).2.find j = some site →
        Represents choices ordering j site := by
  have hs' : ∀ e ∈ s.1, e.2 ∈ before ++ [i] ∧ choices e.2 = e.1 :=
    fun e he => ⟨List.mem_append_left _ (hs e he).1, (hs e he).2⟩
  rw [pruneSite]
  by_cases hlen : (choices i).keys.length ≤ 1
  · rw [if_pos hlen]
    exact ⟨hs', hc⟩
  · rw [if_neg hlen]
    cases hf : s.1.find? (fun e => decide (e.1 = choices i)) with
    | none =>
        refine ⟨?_, hc⟩
        intro e he
        rcases List.mem_append.mp he with he | he
        · exact hs' e he
        · rw [List.mem_singleton.mp he]
          exact ⟨List.mem_append_right _ (List.mem_singleton_self i), rfl⟩
    | some e =>
        refine ⟨hs', ?_⟩
        intro j site hfind
        rw [OrderedMap.find_insert] at hfind
        by_cases hj : j = i
        · rw [if_pos hj] at hfind
          obtain ⟨hmem, hrules⟩ := hs e (List.mem_of_find?_eq_some hf)
          have hrs : e.1 = choices i := by simpa using List.find?_some hf
          have hi : i ∉ before := by
            rw [heq] at hnd
            exact fun hm => (List.nodup_append.mp hnd).2.2 i hm i List.mem_cons_self rfl
          rw [hj, ← Option.some.inj hfind, heq]
          refine ⟨List.mem_append_right _ List.mem_cons_self, hrules.trans hrs, ?_⟩
          rw [List.idxOf_append_of_mem hmem, List.idxOf_append_of_notMem hi]
          have := List.idxOf_lt_length_of_mem hmem
          omega
        · rw [if_neg hj] at hfind
          exact hc j site hfind

/-- The pruning loop keeps the invariant. -/
theorem Inv.prune {choices : χ → RuleSet ρ} {t : RuleChoiceCollection χ} (h : Inv choices t) :
    Inv choices (t.pruneChoiceSpace choices) := by
  have hloop : ∀ (l before : List χ) (s : List (RuleSet ρ × χ) × OrderedMap χ χ),
      t.ordering = before ++ l → (∀ e ∈ s.1, e.2 ∈ before ∧ choices e.2 = e.1) →
      (∀ j site, s.2.find j = some site → Represents choices t.ordering j site) →
      ∀ j site, (l.foldl (pruneSite choices) s).2.find j = some site →
        Represents choices t.ordering j site := by
    intro l
    induction l with
    | nil => exact fun before s _ _ hc => hc
    | cons i rest ih =>
        intro before s heq hs hc
        obtain ⟨hs', hc'⟩ := pruneSite_spec heq h.nodup hs hc
        exact ih (before ++ [i]) _ (by rw [heq, List.append_assoc]; rfl) hs' hc'
  exact ⟨h.nodup, hloop t.ordering [] ([], t.combinedChoices) rfl
    (fun e he => absurd he List.not_mem_nil) h.combined⟩

/-- **EVERY HISTORY KEEPS THE REPRESENTATIVES IN FRONT**, and lists the sites it added. -/
theorem run_inv (choices : χ → RuleSet ρ) (ops : List (Op χ)) (hnd : (added ops).Nodup) :
    Inv choices (run choices ops) ∧ (run choices ops).ordering = added ops := by
  have hloop : ∀ (ops : List (Op χ)) (t : RuleChoiceCollection χ), Inv choices t →
      (t.ordering ++ added ops).Nodup →
      Inv choices (ops.foldl (apply choices) t) ∧
        (ops.foldl (apply choices) t).ordering = t.ordering ++ added ops := by
    intro ops
    induction ops with
    | nil =>
        intro t h _
        exact ⟨h, (List.append_nil _).symm⟩
    | cons op rest ih =>
        intro t h hnd
        cases op with
        | addConsumer i =>
            have hsplit : t.ordering ++ added (.addConsumer i :: rest) =
                (t.ordering ++ [i]) ++ added rest := by
              rw [List.append_assoc]
              rfl
            rw [hsplit] at hnd ⊢
            exact ih (t.addConsumer i) ⟨(List.nodup_append.mp hnd).1,
              fun j site hs => (h.combined j site hs).snoc⟩ hnd
        | markInvalid i => exact ih (t.markInvalid i) ⟨h.nodup, h.combined⟩ hnd
        | pruneChoiceSpace => exact ih (t.pruneChoiceSpace choices) h.prune hnd
  have hempty : Inv choices (empty : RuleChoiceCollection χ) :=
    ⟨List.nodup_nil, fun i site hs => by cases hs⟩
  exact hloop ops empty hempty hnd

/-! ## The choice space -/

/-- The allowed assignments, as results of the decoder. -/
def choiceSpace (choices : χ → RuleSet ρ) (t : RuleChoiceCollection χ) :
    Set (Option (RuleChoiceAssignment χ ρ)) :=
  {o | ∃ a, o = some a ∧ Allowed choices t a}

/-- **DECODING IS A BIJECTION ONTO THE ALLOWED ASSIGNMENTS** from the indices below their
    number. -/
theorem getAssignment_bijOn {choices : χ → RuleSet ρ} {t : RuleChoiceCollection χ}
    (h : Inv choices t) (hne : ∀ i ∈ t.ordering, (choices i).keys ≠ []) :
    Set.BijOn (getAssignment choices t)
      {n | n < choiceCount choices t.combinedChoices t.ordering} (choiceSpace choices t) := by
  have hbij := assign_bijOn t.ordering [] (fun _ => none) h.nodup hne
    (h.declared t.ordering [] rfl) (fun i hi => absurd hi List.not_mem_nil)
  have hspace : completions choices t.combinedChoices t.ordering (fun _ => none) =
      choiceSpace choices t := by
    ext o
    constructor
    · rintro ⟨a, rfl, ha⟩
      exact ⟨a, rfl, ha.chosen,
        fun i site hs => ha.combined i (h.combined i site hs).listed site hs, ha.same⟩
    · rintro ⟨a, rfl, ha⟩
      exact ⟨a, rfl, ha.outside, ha.chosen, fun i _ => ha.combined i⟩
  rw [hspace] at hbij
  exact hbij

/-- **CHOICE ENUMERATION IS A BIJECTION EXACTLY UP TO `size_t`**: after any history that adds
    distinct sites with rules, the indices below `size` are in bijection with the allowed
    assignments if and only if there are fewer than 2^64 of them. -/
theorem getAssignment_bijOn_iff (choices : χ → RuleSet ρ) (ops : List (Op χ))
    (hnd : (added ops).Nodup) (hne : ∀ i ∈ added ops, (choices i).keys ≠ []) :
    Set.BijOn (getAssignment choices (run choices ops))
        {n | n < size choices (run choices ops)} (choiceSpace choices (run choices ops)) ↔
      choiceCount choices (run choices ops).combinedChoices (run choices ops).ordering <
        2 ^ 64 := by
  obtain ⟨hinv, hord⟩ := run_inv choices ops hnd
  have hbij := getAssignment_bijOn hinv (by rw [hord]; exact hne)
  have hsize := size_eq choices (run choices ops)
  have hpos := choiceCount_pos choices (run choices ops).combinedChoices
    (run choices ops).ordering
  generalize choiceCount choices (run choices ops).combinedChoices
    (run choices ops).ordering = count at hbij hsize hpos ⊢
  rw [hsize]
  constructor
  · intro hsmall
    by_contra hover
    -- the index `count % 2^64` is beyond `size`, and its assignment is decoded from no other
    have hlt : count % 2 ^ 64 < count := lt_of_lt_of_le (Nat.mod_lt _ (by decide)) (by omega)
    obtain ⟨m, hm, heq⟩ := hsmall.surjOn (hbij.mapsTo hlt)
    have hm' : m < count % 2 ^ 64 := hm
    have := hbij.injOn (show m < count from hm'.trans hlt) hlt heq
    omega
  · intro hlt
    rw [Nat.mod_eq_of_lt hlt]
    exact hbij

/-- Each site has two rules of its own. -/
def twoRules (i : Nat) : RuleSet Nat := .ofList [(2 * i, ()), (2 * i + 1, ())]

/-- Two sites with one rule set: pruning combines them, and the two indices that are left are
    the two common choices. -/
theorem getAssignment_bijOn_shared :
    Set.BijOn
      (getAssignment (fun _ : Nat => twoRules 0)
        (run (fun _ : Nat => twoRules 0) [.addConsumer 0, .addConsumer 1, .pruneChoiceSpace]))
      {n | n < size (fun _ : Nat => twoRules 0)
        (run (fun _ : Nat => twoRules 0) [.addConsumer 0, .addConsumer 1, .pruneChoiceSpace])}
      (choiceSpace (fun _ : Nat => twoRules 0)
        (run (fun _ : Nat => twoRules 0) [.addConsumer 0, .addConsumer 1, .pruneChoiceSpace])) :=
  (getAssignment_bijOn_iff (fun _ : Nat => twoRules 0)
    [.addConsumer 0, .addConsumer 1, .pruneChoiceSpace] (by decide) (by decide)).mpr (by decide)

/-- Sixty-four sites with two rules each. -/
def manySites : List (Op Nat) := (List.range 64).map .addConsumer ++ [.pruneChoiceSpace]

/-- Their choice space has 2^64 assignments and size zero: no index decodes to any of them. -/
theorem many_sites_not_bijOn :
    ¬ Set.BijOn (getAssignment twoRules (run twoRules manySites))
      {n | n < size twoRules (run twoRules manySites)}
      (choiceSpace twoRules (run twoRules manySites)) := by
  intro hbij
  have hord : (run twoRules manySites).ordering = List.range 64 := by decide +kernel
  have hcombined : (run twoRules manySites).combinedChoices = ∅ := by decide +kernel
  have hsize : size twoRules (run twoRules manySites) = 0 := by decide +kernel
  have hfirst : ∀ i, 2 * i ∈ twoRules i := fun i =>
    OrderedMap.mem_insert.mpr (Or.inr (OrderedMap.mem_insert.mpr (Or.inl rfl)))
  have hallowed : Allowed twoRules (run twoRules manySites)
      (fun i => if i < 64 then some (2 * i) else none) := by
    refine ⟨?_, ?_, ?_⟩
    · intro i hi
      rw [hord, List.mem_range] at hi
      exact ⟨2 * i, if_pos hi, hfirst i⟩
    · intro i site hs
      rw [hcombined] at hs
      cases hs
    · intro i hi
      rw [hord, List.mem_range] at hi
      exact if_neg hi
  obtain ⟨n, hn, _⟩ := hbij.surjOn ⟨_, rfl, hallowed⟩
  have hn' : n < size twoRules (run twoRules manySites) := hn
  omega

end RuleChoiceCollection

end PbRuleChoice
