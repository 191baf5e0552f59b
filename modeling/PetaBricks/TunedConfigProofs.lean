import PetaBricks.HighLevelConfigProofs

/-! # Tuned configurations stay valid

    `fold_levels` and `fold_values` compute what an operation leaves of a selector and of
    a tunable; `step_keeps` says that one safe operation keeps all configurations valid,
    `stays_valid` that a run of them does.  Most of what is unsafe comes from four places:
    the sum of the draws in `Selector.randomize` passes the mark for disabled levels;
    `min(n, max)` falls below `min`; `rnd_uniform` reaches `max+1`; and the test in
    `Selector.hillclimb` is the wrong way round, so that it climbs where both parents are
    disabled and nowhere else. -/

namespace PbHighLevelConfig

open PbSlotFold Selector

/-! ## The part of an item -/

/-- The part of all configurations that belongs to an item. -/
inductive Slot
  | levels (name : String)
  | values (name : String)

def Slot.Content : Slot → Type
  | .levels _ => ℕ → Levels
  | .values _ => ℕ → Values

def view : (s : Slot) → Population → s.Content
  | .levels name, pop => fun c => (pop c).levels name
  | .values name, pop => fun c => (pop c).values name

def Item.slot : Item → Slot
  | .selector name _ => .levels name
  | .tunable _ t => .values t.name

section Fold

variable {α : Type} (item : α → Item) (dst : ℕ) (f : α → ℕ → (ℕ → Levels) → Levels)
  (g : α → Kind → Tunable → (ℕ → Values) → Values) (pop : Population)

theorem apply_levels (name : String) (rules c : ℕ) (f : ℕ → (ℕ → Levels) → Levels)
    (g : Kind → Tunable → (ℕ → Values) → Values) :
    ((Item.selector name rules).apply dst f g pop c).levels name =
      if c = dst then f rules fun c => (pop c).levels name else (pop c).levels name := by
  by_cases h : c = dst
  · simp [Item.apply, h]
  · simp [Item.apply, h]

theorem apply_values (kind : Kind) (t : Tunable) (c : ℕ) (f : ℕ → (ℕ → Levels) → Levels)
    (g : Kind → Tunable → (ℕ → Values) → Values) :
    ((Item.tunable kind t).apply dst f g pop c).values t.name =
      if c = dst then g kind t fun c => (pop c).values t.name else (pop c).values t.name := by
  by_cases h : c = dst
  · simp [Item.apply, h]
  · simp [Item.apply, h]

/-- An item keeps to its part. -/
theorem apply_local : Local view (fun a => (item a).slot)
    (fun pop a => (item a).apply dst (f a) (g a) pop) where
  frame := by
    intro pop a s hne
    cases hitem : item a with
    | selector name rules =>
        rw [hitem] at hne
        cases s with
        | levels name' =>
            have hname : name' ≠ name := fun h => hne (by rw [h]; rfl)
            funext c
            by_cases hc : c = dst <;> simp [view, Item.apply, hc, hname]
        | values name' =>
            funext c
            by_cases hc : c = dst <;> simp [view, Item.apply, hc]
    | tunable kind t =>
        rw [hitem] at hne
        cases s with
        | levels name' =>
            funext c
            by_cases hc : c = dst <;> simp [view, Item.apply, hc]
        | values name' =>
            have hname : name' ≠ t.name := fun h => hne (by rw [h]; rfl)
            funext c
            by_cases hc : c = dst <;> simp [view, Item.apply, hc, hname]
  own := by
    intro pop pop' a hview
    cases hitem : item a with
    | selector name rules =>
        rw [hitem] at hview
        have hslots : (fun c => (pop c).levels name) = fun c => (pop' c).levels name := hview
        funext c
        show ((Item.selector name rules).apply dst (f a) (g a) pop c).levels name =
          ((Item.selector name rules).apply dst (f a) (g a) pop' c).levels name
        rw [apply_levels, apply_levels, hslots]
        exact congrArg (if c = dst then _ else ·) (congrFun hslots c)
    | tunable kind t =>
        rw [hitem] at hview
        have hslots : (fun c => (pop c).values t.name) = fun c => (pop' c).values t.name := hview
        funext c
        show ((Item.tunable kind t).apply dst (f a) (g a) pop c).values t.name =
          ((Item.tunable kind t).apply dst (f a) (g a) pop' c).values t.name
        rw [apply_values, apply_values, hslots]
        exact congrArg (if c = dst then _ else ·) (congrFun hslots c)

end Fold

/-! ## The items of a program -/

variable {info : TrainingInfo}

theorem items_perm (info : TrainingInfo) : (items info).Perm
    (info.algchoices.map (fun a => Item.selector a.1 a.2) ++
      info.tunables.filterMap fun t => (configctor t.type).join.map (Item.tunable · t)) :=
  List.mergeSort_perm _ _

theorem selector_mem_items {name : String} {rules : ℕ} :
    Item.selector name rules ∈ items info ↔ (name, rules) ∈ info.algchoices := by
  rw [(items_perm info).mem_iff, List.mem_append, List.mem_map, List.mem_filterMap]
  constructor
  · rintro (⟨a, ha, heq⟩ | ⟨t, _, heq⟩)
    · cases heq
      exact ha
    · obtain ⟨kind, _, h⟩ := Option.map_eq_some_iff.mp heq
      cases h
  · exact fun h => .inl ⟨(name, rules), h, rfl⟩

theorem tunable_mem_items {kind : Kind} {t : Tunable} :
    Item.tunable kind t ∈ items info ↔
      t ∈ info.tunables ∧ (configctor t.type).join = some kind := by
  rw [(items_perm info).mem_iff, List.mem_append, List.mem_map, List.mem_filterMap]
  constructor
  · rintro (⟨a, _, heq⟩ | ⟨t', ht', heq⟩)
    · cases heq
    · obtain ⟨kind', hkind, h⟩ := Option.map_eq_some_iff.mp heq
      cases h
      exact ⟨ht', hkind⟩
  · rintro ⟨ht, hkind⟩
    exact .inr ⟨t, ht, by rw [hkind]; rfl⟩

theorem slots_sublist (ts : List Tunable) :
    ((ts.filterMap fun t => (configctor t.type).join.map (Item.tunable · t)).map Item.slot).Sublist
      ((ts.map Tunable.name).map Slot.values) := by
  induction ts with
  | nil => exact .slnil
  | cons t ts ih =>
      cases hkind : (configctor t.type).join with
      | none =>
          rw [List.filterMap_cons_none (by rw [hkind]; rfl)]
          exact .cons _ ih
      | some kind =>
          rw [List.filterMap_cons_some (by rw [hkind]; rfl)]
          exact .cons_cons _ ih

/-- No two items share a part. -/
theorem slots_nodup (info : TrainingInfo) : ((items info).map Item.slot).Nodup := by
  rw [((items_perm info).map Item.slot).nodup_iff, List.map_append, List.nodup_append']
  refine ⟨?_, (slots_sublist _).nodup (info.tunables_nodup.map fun a b h => by cases h; rfl), ?_⟩
  · have hmap : (info.algchoices.map fun a => Item.selector a.1 a.2).map Item.slot =
        (info.algchoices.map Prod.fst).map Slot.levels := by simp [Item.slot]
    rw [hmap]
    exact info.algchoices_nodup.map fun a b h => by cases h; rfl
  · intro s hs hs'
    obtain ⟨_, hi, rfl⟩ := List.mem_map.mp hs
    obtain ⟨a, _, rfl⟩ := List.mem_map.mp hi
    obtain ⟨_, _, h⟩ := List.mem_map.mp ((slots_sublist _).subset hs')
    cases h

/-! ## Whole operations -/

/-- The class of a tunable; a type that is unknown has one value. -/
def Tunable.kind (t : Tunable) : Kind := (configctor t.type).join.getD .ignore

/-- The selectors' levels are valid, and every other tunable is in its range. -/
structure Config.Valid (info : TrainingInfo) (cfg : Config) : Prop where
  levels : ∀ a ∈ info.algchoices, (cfg.levels a.1).Valid a.2
  values : ∀ t ∈ info.tunables, configctor t.type ≠ some none → t.Within t.kind (cfg.values t.name)

section Fold

variable {α : Type} {item : α → Item} {as : List α} (dst : ℕ)
  (f : α → ℕ → (ℕ → Levels) → Levels) (g : α → Kind → Tunable → (ℕ → Values) → Values)
  (pop : Population)

theorem owners_nodup (has : as.map item = items info) :
    (as.map fun a => (item a).slot).Nodup := by
  have hslots : as.map (fun a => (item a).slot) = (as.map item).map Item.slot := by
    rw [List.map_map]
    rfl
  rw [hslots, has]
  exact slots_nodup info

/-- Each part is left as by its item alone. -/
theorem fold_view (has : as.map item = items info) {a : α} (ha : a ∈ as) {i : Item}
    (hitem : item a = i) :
    view i.slot (as.foldl (fun pop a => (item a).apply dst (f a) (g a) pop) pop) =
      view i.slot (i.apply dst (f a) (g a) pop) := by
  rw [← hitem]
  exact (apply_local item dst f g).foldl_own (owners_nodup has) ha pop

/-- What an operation leaves of a selector. -/
theorem fold_levels (has : as.map item = items info) {name : String} {rules : ℕ}
    (h : (name, rules) ∈ info.algchoices) :
    ∃ a ∈ as, item a = .selector name rules ∧ ∀ c,
      (as.foldl (fun pop a => (item a).apply dst (f a) (g a) pop) pop c).levels name =
        if c = dst then f a rules fun c => (pop c).levels name else (pop c).levels name := by
  obtain ⟨a, ha, hitem⟩ := List.mem_map.mp (has ▸ selector_mem_items.mpr h)
  have hfold := fold_view dst f g pop has ha hitem
  exact ⟨a, ha, hitem, fun c => (congrFun hfold c).trans (apply_levels dst pop name rules c _ _)⟩

/-- What an operation leaves of a tunable. -/
theorem fold_values (has : as.map item = items info) {t : Tunable} (ht : t ∈ info.tunables)
    {kind : Kind} (hkind : (configctor t.type).join = some kind) :
    ∃ a ∈ as, item a = .tunable kind t ∧ ∀ c,
      (as.foldl (fun pop a => (item a).apply dst (f a) (g a) pop) pop c).values t.name =
        if c = dst then g a kind t fun c => (pop c).values t.name else (pop c).values t.name := by
  obtain ⟨a, ha, hitem⟩ := List.mem_map.mp (has ▸ tunable_mem_items.mpr ⟨ht, hkind⟩)
  have hfold := fold_view dst f g pop has ha hitem
  exact ⟨a, ha, hitem, fun c => (congrFun hfold c).trans (apply_values dst pop kind t c _ _)⟩

/-- A tunable of unknown type is left alone. -/
theorem fold_unknown (has : as.map item = items info) {t : Tunable} (ht : t ∈ info.tunables)
    (hkind : (configctor t.type).join = none) (c : ℕ) :
    (as.foldl (fun pop a => (item a).apply dst (f a) (g a) pop) pop c).values t.name =
      (pop c).values t.name := by
  have hother : ∀ a ∈ as, (item a).slot ≠ .values t.name := by
    intro a ha hslot
    have hmem : item a ∈ items info := has ▸ List.mem_map_of_mem ha
    cases hitem : item a with
    | selector name rules =>
        rw [hitem] at hslot
        cases hslot
    | tunable kind t' =>
        rw [hitem] at hslot hmem
        obtain ⟨ht', hkind'⟩ := tunable_mem_items.mp hmem
        have hname : t'.name = t.name := by
          injection hslot
        have heq : t' = t := List.inj_on_of_nodup_map info.tunables_nodup ht' ht hname
        rw [heq, hkind] at hkind'
        cases hkind'
  exact congrFun ((apply_local item dst f g).foldl_frame hother pop) c

/-- **AN OPERATION KEEPS ALL CONFIGURATIONS VALID** if it does so for each of the parts. -/
theorem fold_valid {pop : Population} (has : as.map item = items info)
    (hpop : ∀ c, (pop c).Valid info)
    (hf : ∀ a ∈ as, ∀ name rules, item a = .selector name rules → (name, rules) ∈ info.algchoices →
      (f a rules fun c => (pop c).levels name).Valid rules)
    (hg : ∀ a ∈ as, ∀ kind t, item a = .tunable kind t →
      (∀ c, t.Within kind ((pop c).values t.name)) →
      t.Within kind (g a kind t fun c => (pop c).values t.name)) (c : ℕ) :
    (as.foldl (fun pop a => (item a).apply dst (f a) (g a) pop) pop c).Valid info := by
  refine ⟨fun ⟨name, rules⟩ h => ?_, fun t ht hne => ?_⟩
  · obtain ⟨a, ha, hitem, heq⟩ := fold_levels dst f g pop has h
    show (Config.levels _ name).Valid rules
    rw [heq]
    split
    · exact hf a ha name rules hitem h
    · exact (hpop c).levels (name, rules) h
  · cases hkind : (configctor t.type).join with
    | none =>
        rw [fold_unknown dst f g pop has ht hkind]
        exact (hpop c).values t ht hne
    | some kind =>
        have hk : t.kind = kind := by rw [Tunable.kind, hkind]; rfl
        have hwithin : ∀ c, t.Within kind ((pop c).values t.name) := fun c => by
          rw [← hk]
          exact (hpop c).values t ht hne
        obtain ⟨a, ha, hitem, heq⟩ := fold_values dst f g pop has ht hkind
        rw [heq, hk]
        split
        · exact hg a ha kind t hitem hwithin
        · exact hwithin c

end Fold

/-! ## Runs -/

/-- The conditions on an operation, for each of the items: on the bounds it takes and on the
    outcomes of its draws. -/
def OpSafe (info : TrainingInfo) (pop : Population) : Op → Prop
  | .randomize _ n o =>
      (∀ a ∈ info.algchoices, Selector.RandomizeSafe n (o (.selector a.1 a.2))) ∧
      ∀ kind t, .tunable kind t ∈ items info → t.RandomizeSafe kind n (o (.tunable kind t))
  | .mutateChance cfg n o =>
      (∀ a ∈ info.algchoices,
        Selector.MutateSafe n (o (.selector a.1 a.2)) ((pop cfg).levels a.1)) ∧
      ∀ kind t, .tunable kind t ∈ items info → (o (.tunable kind t)).roll 0 = true →
        t.MutateSafe kind n (o (.tunable kind t))
  | .crossover _ _ _ _ _ => True
  | .hillclimb p1 p2 output n =>
      ∀ a ∈ info.algchoices, Selector.HillclimbSafe ((pop p1).levels a.1) ((pop p2).levels a.1) n
        ((pop output).levels a.1)

/-- Levels that both parents have disabled stay disabled. -/
def NeverEnables (info : TrainingInfo) (pop : Population) : Op → Prop
  | .hillclimb p1 p2 output n => ∀ a ∈ info.algchoices, ∀ i, 2 ≤ i → i < maxLevels →
      BothDisabled ((pop p1).levels a.1) ((pop p2).levels a.1) i →
      disabled ≤ ((pop output).levels a.1).cutoff i →
      disabled ≤ ((step info pop (.hillclimb p1 p2 output n) output).levels a.1).cutoff i
  | _ => True

/-- All configurations are valid after every operation, and no climb enables a level. -/
def Keeps (info : TrainingInfo) : Population → List Op → Prop
  | _, [] => True
  | pop, op :: ops =>
      (∀ c, (step info pop op c).Valid info) ∧ NeverEnables info pop op ∧
        Keeps info (step info pop op) ops

/-- Every operation of the run is safe where it happens. -/
def Safe (info : TrainingInfo) : Population → List Op → Prop
  | _, [] => True
  | pop, op :: ops => OpSafe info pop op ∧ Safe info (step info pop op) ops

/-- **ONE SAFE OPERATION.** -/
theorem step_keeps {pop : Population} (hpop : ∀ c, (pop c).Valid info) {op : Op}
    (hn : 1 ≤ op.size) (hs : OpSafe info pop op) :
    (∀ c, (step info pop op c).Valid info) ∧ NeverEnables info pop op := by
  have hrules : ∀ {name rules}, (name, rules) ∈ info.algchoices → 0 < rules :=
    fun h => info.rules_pos _ h
  cases op with
  | randomize cfg n o =>
      refine ⟨fold_valid _ _ _ (List.map_id _) hpop ?_ ?_, trivial⟩
      · intro a _ name rules hitem h
        rw [show a = .selector name rules from hitem]
        exact randomize_valid (hrules h) (by have : 1 ≤ n := hn; omega) (hs.1 _ h)
      · intro a ha kind t hitem hw
        rw [show a = .tunable kind t from hitem] at ha ⊢
        exact tunable_randomize_within (hs.2 kind t ha) (hw cfg)
  | mutateChance cfg n o =>
      refine ⟨fold_valid _ _ _ (List.map_id _) hpop ?_ ?_, trivial⟩
      · intro a _ name rules hitem h
        rw [show a = .selector name rules from hitem]
        exact mutateChance_valid (hrules h) (hs.1 _ h) ((hpop cfg).levels _ h)
      · intro a ha kind t hitem hw
        rw [show a = .tunable kind t from hitem] at ha ⊢
        show t.Within kind (t.mutateChance n _ _ kind)
        rw [Tunable.mutateChance]
        split
        · rename_i hroll
          exact tunable_mutate_within (hs.2 kind t ha hroll) (hw cfg)
        · exact hw cfg
  | crossover src1 src2 dst t1 t2 =>
      refine ⟨fold_valid _ _ _ (List.zipIdx_map_fst _ _) hpop ?_ ?_, trivial⟩
      · intro a _ name rules _ h
        exact (hpop _).levels _ h
      · intro a _ kind t _ hw
        exact hw _
  | hillclimb p1 p2 output n =>
      have hclimb : ∀ {name rules}, (name, rules) ∈ info.algchoices → _ :=
        fun h => hillclimb_valid (hs _ h) ((hpop output).levels _ h)
      refine ⟨fold_valid _ _ _ (List.map_id _) hpop ?_ ?_, ?_⟩
      · intro a _ name rules _ h
        exact (hclimb h).1
      · intro a _ kind t _ hw
        exact tunable_hillclimb_within _ _ (hw output)
      · intro a ha i h2 hlt hboth hdis
        obtain ⟨_, _, _, heq⟩ := fold_levels output
          (fun _ _ l => Selector.hillclimb (l p1) (l p2) n (l output))
          (fun _ kind t v => t.hillclimb (v output) (v p1) (v p2) kind) pop (List.map_id _) ha
        have hlevels := heq output
        rw [if_pos rfl] at hlevels
        show disabled ≤ (Config.levels _ a.1).cutoff i
        exact hlevels ▸ (hclimb ha).2 i h2 hlt hboth hdis

/-- **TUNED CONFIGURATIONS STAY VALID** in every run whose operations are safe. -/
theorem stays_valid {pop : Population} (hpop : ∀ c, (pop c).Valid info) {ops : List Op}
    (hn : ∀ op ∈ ops, 1 ≤ op.size) (hs : Safe info pop ops) : Keeps info pop ops := by
  induction ops generalizing pop with
  | nil => trivial
  | cons op ops ih =>
      obtain ⟨hvalid, hnever⟩ := step_keeps hpop (hn op List.mem_cons_self) hs.1
      exact ⟨hvalid, hnever, ih hvalid (fun o ho => hn o (List.mem_cons_of_mem _ ho)) hs.2⟩

/-- A program with a choice between two rules and a tunable. -/
def sortInfo : TrainingInfo where
  algchoices := [("sort_0", 2)]
  tunables := [⟨"width", "user.tunable", 1, 10, by decide⟩]
  rules_pos := by simp
  algchoices_nodup := by simp
  tunables_nodup := by simp

/-- The configuration with all cutoffs the same. -/
def flatConfig (cutoff : ℤ) : Config where
  levels := fun _ => ⟨fun _ => 0, fun _ => cutoff⟩
  values := fun _ => ⟨5, fun _ => 5⟩

/-- Nothing is rolled for a level, and the draws are in the middle. -/
def middle : Outcomes where
  more := 3
  roll := fun i => i == 0
  uniform := fun _ => ⟨1 / 2, by norm_num, by norm_num⟩
  log := fun _ => ⟨1 / 2, by norm_num, by norm_num⟩
  normal := fun _ => ⟨1, by norm_num⟩
  choice := fun i => i

theorem flatConfig_valid (cutoff : ℤ) : (flatConfig cutoff).Valid sortInfo where
  levels := by
    intro a ha
    rw [List.mem_singleton.mp ha]
    exact ⟨fun _ _ _ => ⟨le_refl 0, show (0 : ℤ) < 2 by decide⟩, fun _ _ _ => le_refl _⟩
  values := by
    intro t ht _
    rw [List.mem_singleton.mp ht]
    exact ⟨show (1 : ℤ) ≤ 5 by decide, show (5 : ℤ) ≤ 10 by decide⟩

/-- A climb, a crossover, a mutation and a new start. -/
theorem stays_valid_sort : Keeps sortInfo (fun _ => flatConfig 50)
    [.hillclimb 0 1 2 100, .crossover 0 1 2 (middle.log 0) (middle.log 0),
      .mutateChance 2 100 fun _ => middle, .randomize 1 100 fun _ => middle] := by
  have htunable : ∀ kind t, Item.tunable kind t ∈ items sortInfo →
      kind = .cutoff ∧ t.min = 1 ∧ t.max = 10 := by
    intro kind t h
    obtain ⟨ht, hkind⟩ := tunable_mem_items.mp h
    rw [List.mem_singleton.mp ht] at hkind ⊢
    exact ⟨(Option.some.inj hkind).symm, rfl, rfl⟩
  refine stays_valid (fun _ => flatConfig_valid 50) ?_ ⟨?_, trivial, ⟨?_, ?_⟩, ⟨?_, ?_⟩, trivial⟩
  · intro op hop
    simp only [List.mem_cons, List.not_mem_nil, or_false] at hop
    rcases hop with rfl | rfl | rfl | rfl <;> decide
  · intro a _ i _ _ hboth
    exact absurd hboth.1 (by decide : ¬ (50 : ℤ) ≥ disabled)
  · intro a _ i h2 _ hroll
    have hzero : i = 0 := by simpa [middle] using hroll
    omega
  · intro kind t h _
    obtain ⟨rfl, hmin, hmax⟩ := htunable kind t h
    show LognormalSafe t.min (Min.min 100 t.max) (middle.uniform 0)
    rw [hmin, hmax]
    refine ⟨by decide, fun _ => ⟨?_, .inl (by decide)⟩⟩
    norm_num [uniform, middle]
  · intro a _ _ _
    show 100 * 2 ^ (levelsOf middle - 3) ≤ disabled
    decide
  · intro kind t h
    obtain ⟨rfl, hmin, _⟩ := htunable kind t h
    show t.min ≤ 100
    rw [hmin]
    decide

/-- All levels are disabled in both parents, and the climb sets the second one to the input
    size. -/
theorem climb_enables : ¬ ∀ (info : TrainingInfo) (pop : Population),
    (∀ c, (pop c).Valid info) → ∀ ops : List Op, (∀ op ∈ ops, 1 ≤ op.size) → Keeps info pop ops := by
  intro h
  have hkeeps := h sortInfo (fun _ => flatConfig disabled) (fun _ => flatConfig_valid disabled)
    [.hillclimb 0 1 2 100] (by simp [Op.size])
  have hnever := hkeeps.2.1 ("sort_0", 2) (by decide) 2 (by decide) (by decide)
    ⟨le_refl _, le_refl _⟩ (le_refl _)
  obtain ⟨_, _, _, heq⟩ := fold_levels 2
    (fun _ _ l => Selector.hillclimb (l 0) (l 1) 100 (l 2))
    (fun _ kind t v => t.hillclimb (v 2) (v 0) (v 1) kind) (fun _ => flatConfig disabled)
    (List.map_id _) (by decide : ("sort_0", 2) ∈ sortInfo.algchoices)
  have hlevels := congrArg (fun l => l.cutoff 2) (heq 2)
  rw [if_pos rfl] at hlevels
  have hclimb : (Selector.hillclimb (flatConfig disabled |>.levels "sort_0")
      (flatConfig disabled |>.levels "sort_0") 100 (flatConfig disabled |>.levels "sort_0")).cutoff 2
      = 100 := by decide
  exact absurd (hnever.trans_eq (hlevels.trans hclimb)) (by decide)

end PbHighLevelConfig
