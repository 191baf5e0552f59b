import Mathlib.Data.List.Sort
import Mathlib.Logic.Function.Basic
import PetaBricks.RoundingProofs

/-! # The tuner's configurations

    `highlevelconfig.py` changes configurations item by item: a selector has the rules and
    cutoffs of its levels, a tunable has a value, or 32 of them if it is an array.  A
    configuration is a dictionary from texts; here the parts of a text, the name of the
    item and what is put behind it, are kept apart.

    Floating point numbers are rationals.  The outcomes of the random choices are
    arguments: where `random.uniform(a, b)` is asked for, the outcome is `a + (b-a)*t`, and
    `t` may be as large as one, because the sum is rounded. -/

namespace PbHighLevelConfig

open PbRounding

/-- The outcome of `random.random()`, or of a sum that rounds to one. -/
abbrev Fraction := {t : ℚ // 0 ≤ t ∧ t ≤ 1}

/-- `random.uniform(a, b)`. -/
def uniform (a b : ℤ) (t : Fraction) : ℚ := a + (b - a) * t.1

def rndUniform (min max : ℤ) (t : Fraction) : ℤ := truncate (uniform min (max + 1) t)

/-- `r` is one minus a quotient of logarithms, from zero to one. -/
def rndLoguniform (min max : ℤ) (r : Fraction) : ℤ := truncate ((max - min) * r.1 + min)

/-- `r` is the logarithm of a normal variate, drawn again until it is not negative. -/
def rndLognormal (mean minv maxv : ℤ) (t : Fraction) (r : {r : ℚ // 0 ≤ r}) : ℤ :=
  if maxv - minv < 16 then rndUniform minv maxv t
  else max minv (min (truncate (r.1 * (mean - minv) + minv)) maxv)

def hillclimb (p1 p2 minv maxv : ℤ) : ℤ :=
  let delta := p2 - p1
  let v := p2 + delta
  if v < minv then minv
  else if v > maxv then maxv
  else v

/-- The outcomes of the choices an item makes in one operation, by level or by entry. -/
structure Outcomes where
  /-- How often `random.choice((True, False))` is `True`. -/
  more : ℕ
  /-- `random.random() < chance`. -/
  roll : ℕ → Bool
  uniform : ℕ → Fraction
  log : ℕ → Fraction
  normal : ℕ → {r : ℚ // 0 ≤ r}
  /-- The index of `random.choice`, as far as the list has one. -/
  choice : ℕ → ℕ

/-- The entries of a selector. -/
structure Levels where
  rule : ℕ → ℤ
  cutoff : ℕ → ℤ

/-- The entries of a tunable. -/
structure Values where
  value : ℤ
  entry : ℕ → ℤ

structure Config where
  levels : String → Levels
  values : String → Values

/-! ## Selectors -/

namespace Selector

def maxLevels : ℕ := 13

def disabled : ℤ := 2 ^ 31

def randomrule (rules : ℕ) (c : ℕ) : ℤ := (c % rules : ℕ)

def setCutoff (l : Levels) (i : ℕ) (v : ℤ) : Levels :=
  { l with cutoff := Function.update l.cutoff i v }

def setRule (l : Levels) (i : ℕ) (v : ℤ) : Levels :=
  { l with rule := Function.update l.rule i v }

/-- `for i in xrange(2, levels)`, from level `i` on with `k` levels left. -/
def enableFrom (rules : ℕ) (n : ℤ) (o : Outcomes) : ℕ → ℕ → ℤ → Levels → Levels
  | 0, _, _, l => l
  | k + 1, i, v, l =>
      let v := v + rndLoguniform v n (o.log i)
      enableFrom rules n o k (i + 1) v
        (setRule (setCutoff l i v) i (randomrule rules (o.choice i)))

/-- `for i in xrange(levels, Selector.max_levels)`. -/
def disableFrom : ℕ → ℕ → Levels → Levels
  | 0, _, l => l
  | k + 1, i, l => disableFrom k (i + 1) (setRule (setCutoff l i disabled) i 0)

/-- The number of levels, the first one included. -/
def levelsOf (o : Outcomes) : ℕ := min (2 + o.more) maxLevels

def randomize (rules : ℕ) (n : ℤ) (o : Outcomes) (l : Levels) : Levels :=
  let levels := levelsOf o
  let l := setRule l 1 (randomrule rules (o.choice 1))
  disableFrom (maxLevels - levels) levels (enableFrom rules n o (levels - 2) 2 0 l)

/-- The upper bound of a cutoff: the input size, and the cutoff above. -/
def high (n : ℤ) (l : Levels) (i : ℕ) : ℤ :=
  if i = maxLevels - 1 then n else min n (l.cutoff (i + 1))

/-- `for i in xrange(2, Selector.max_levels)`, up to the first level that is disabled. -/
def mutateFrom (rules : ℕ) (n : ℤ) (o : Outcomes) : ℕ → ℕ → Levels → Levels
  | 0, _, l => l
  | k + 1, i, l =>
      let low := if i = 2 then 1 else l.cutoff (i - 1)
      let high := high n l i
      if l.cutoff i ≥ disabled then
        if o.roll i then
          setRule (setCutoff l i (rndLoguniform low high (o.log i))) i
            (randomrule rules (o.choice i))
        else l
      else if o.roll i then
        mutateFrom rules n o k (i + 1)
          (setCutoff l i (rndLognormal (l.cutoff i) low high (o.uniform i) (o.normal i)))
      else mutateFrom rules n o k (i + 1) l

def mutateChance (rules : ℕ) (n : ℤ) (o : Outcomes) (l : Levels) : Levels :=
  mutateFrom rules n o (maxLevels - 2) 2 l

/-- `for i in xrange(2, Selector.max_levels)`; only levels that both parents have disabled are
    written. -/
def hillclimbFrom (p1 p2 : Levels) (n : ℤ) : ℕ → ℕ → Levels → Levels
  | 0, _, output => output
  | k + 1, i, output =>
      let low := if i = 2 then 0 else output.cutoff (i - 1)
      let high := high n output i
      hillclimbFrom p1 p2 n k (i + 1)
        (if p1.cutoff i ≥ disabled ∧ p2.cutoff i ≥ disabled then
          setCutoff output i (PbHighLevelConfig.hillclimb (p1.cutoff i) (p2.cutoff i) low high)
        else output)

def hillclimb (p1 p2 : Levels) (n : ℤ) (output : Levels) : Levels :=
  hillclimbFrom p1 p2 n (maxLevels - 2) 2 output

end Selector

/-! ## Tunables -/

/-- A tunable of the training info. -/
structure Tunable where
  name : String
  type : String
  min : ℤ
  max : ℤ
  min_le : min ≤ max
deriving DecidableEq

/-- The classes of items, apart from selectors. -/
inductive Kind
  | cutoff
  | switch
  | synthesizedFunction
  | ignore
deriving DecidableEq

/-- The class for a type of tunables.  Those of selectors have none, and other types are
    unknown. -/
def configctor : String → Option (Option Kind)
  | "algchoice.alg" => some none
  | "algchoice.cutoff" => some none
  | "system.cutoff.distributed" => some (some .cutoff)
  | "system.cutoff.sequential" => some (some .cutoff)
  | "system.cutoff.splitsize" => some (some .cutoff)
  | "system.data.distribution.size" => some (some .cutoff)
  | "system.data.distribution.type" => some (some .switch)
  | "system.data.migration.type" => some (some .switch)
  | "system.flag.unrollschedule" => some (some .switch)
  | "system.runtime.threads" => some (some .ignore)
  | "system.tunable.accuracy.array" => some (some .synthesizedFunction)
  | "user.tunable.accuracy.array" => some (some .synthesizedFunction)
  | "user.tunable.array" => some (some .synthesizedFunction)
  | "user.tunable" => some (some .cutoff)
  | _ => none

namespace Tunable

variable (t : Tunable) (n : ℤ) (o : Outcomes) (v : Values)

/-- `SynthesizedFunction.randomize`: one draw, scaled for each of the entries. -/
def randomizeEntries : Values :=
  let x := rndLoguniform t.min t.max (o.log 0)
  { v with entry := fun i => truncate ((x : ℚ) / 2 ^ 32 * 2 ^ i) }

def randomize (kind : Kind) : Values :=
  match kind with
  | .cutoff => { v with value := rndLoguniform t.min (Min.min n t.max) (o.log 0) }
  | .switch => { v with value := rndUniform t.min t.max (o.uniform 0) }
  | .synthesizedFunction => t.randomizeEntries o v
  | .ignore => v

/-- `Item.mutate` is `randomize`, but not for cutoffs. -/
def mutate (kind : Kind) : Values :=
  match kind with
  | .cutoff =>
      let x := rndLognormal v.value t.min (Min.min n t.max) (o.uniform 0) (o.normal 0)
      { v with value := x }
  | kind => t.randomize n o v kind

def mutateChance (kind : Kind) : Values :=
  if o.roll 0 then t.mutate n o v kind else v

def hillclimb (p1 p2 : Values) (kind : Kind) : Values :=
  match kind with
  | .switch => v
  | .synthesizedFunction =>
      let entry := fun i => PbHighLevelConfig.hillclimb (p1.entry i) (p2.entry i) t.min t.max
      { v with entry := entry }
  | _ => { v with value := PbHighLevelConfig.hillclimb p1.value p2.value t.min t.max }

end Tunable

/-! ## Items -/

inductive Item
  | selector (name : String) (rules : ℕ)
  | tunable (kind : Kind) (t : Tunable)
deriving DecidableEq

def Item.name : Item → String
  | .selector name _ => name
  | .tunable _ t => t.name

/-- The selectors and tunables of a program; the dictionaries they are read into have each name
    once. -/
structure TrainingInfo where
  algchoices : List (String × ℕ)
  tunables : List Tunable
  rules_pos : ∀ a ∈ algchoices, 0 < a.2
  algchoices_nodup : (algchoices.map Prod.fst).Nodup
  tunables_nodup : (tunables.map Tunable.name).Nodup

/-- `HighLevelConfig.items`. -/
def items (info : TrainingInfo) : List Item :=
  (info.algchoices.map (fun a => Item.selector a.1 a.2) ++
    info.tunables.filterMap fun t => (configctor t.type).join.map (Item.tunable · t)).mergeSort
      fun a b => a.name ≤ b.name

/-- The configurations there are. -/
abbrev Population := ℕ → Config

/-- An item changes its part of one configuration, and sees the same part of all of them. -/
def Item.apply (item : Item) (dst : ℕ) (f : ℕ → (ℕ → Levels) → Levels)
    (g : Kind → Tunable → (ℕ → Values) → Values) (pop : Population) : Population :=
  match item with
  | .selector name rules => Function.update pop dst
      { pop dst with
        levels := Function.update (pop dst).levels name (f rules fun c => (pop c).levels name) }
  | .tunable kind t => Function.update pop dst
      { pop dst with
        values := Function.update (pop dst).values t.name (g kind t fun c => (pop c).values t.name) }

namespace Item

def randomize (cfg : ℕ) (n : ℤ) (o : Outcomes) (item : Item) : Population → Population :=
  item.apply cfg (fun rules l => Selector.randomize rules n o (l cfg))
    (fun kind t v => t.randomize n o (v cfg) kind)

def mutateChance (cfg : ℕ) (n : ℤ) (o : Outcomes) (item : Item) : Population → Population :=
  item.apply cfg (fun rules l => Selector.mutateChance rules n o (l cfg))
    (fun kind t v => t.mutateChance n o (v cfg) kind)

def copyValues (src dst : ℕ) (item : Item) : Population → Population :=
  item.apply dst (fun _ l => l src) (fun _ _ v => v src)

def hillclimb (p1 p2 output : ℕ) (n : ℤ) (item : Item) : Population → Population :=
  item.apply output (fun _ l => Selector.hillclimb (l p1) (l p2) n (l output))
    (fun kind t v => t.hillclimb (v output) (v p1) (v p2) kind)

end Item

/-! ## The operations -/

inductive Op
  | randomize (cfg : ℕ) (n : ℤ) (o : Item → Outcomes)
  | mutateChance (cfg : ℕ) (n : ℤ) (o : Item → Outcomes)
  | crossover (src1 src2 dst : ℕ) (t1 t2 : Fraction)
  | hillclimb (p1 p2 output : ℕ) (n : ℤ)

/-- The input size of an operation. -/
def Op.size : Op → ℤ
  | .randomize _ n _ => n
  | .mutateChance _ n _ => n
  | .crossover _ _ _ _ _ => 1
  | .hillclimb _ _ _ n => n

def crossover (items : List Item) (src1 src2 dst : ℕ) (t1 t2 : Fraction) (pop : Population) :
    Population :=
  let p1 := rndUniform 0 items.length t1
  let p2 := rndUniform 0 items.length t2
  let (p1, p2) := if p1 > p2 then (p2, p1) else (p1, p2)
  items.zipIdx.foldl (fun pop x =>
    x.1.copyValues (if p1 ≤ x.2 ∧ x.2 < p2 then src2 else src1) dst pop) pop

def step (info : TrainingInfo) (pop : Population) : Op → Population
  | .randomize cfg n o => (items info).foldl (fun pop i => i.randomize cfg n (o i) pop) pop
  | .mutateChance cfg n o => (items info).foldl (fun pop i => i.mutateChance cfg n (o i) pop) pop
  | .crossover src1 src2 dst t1 t2 => crossover (items info) src1 src2 dst t1 t2 pop
  | .hillclimb p1 p2 output n => (items info).foldl (fun pop i => i.hillclimb p1 p2 output n pop) pop

end PbHighLevelConfig
