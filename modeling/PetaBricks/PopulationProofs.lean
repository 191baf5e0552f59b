import Mathlib.Data.Bool.AllAny
import Mathlib.Data.NNRat.Floor
import PetaBricks.ConfigFileModel

/-! # Populations — `Population.next_population_exploration`

    A new population is put together from the best members, mutated, crossed and climbing
    candidates and random ones.  Of the candidates whose configurations have one hash only
    the first stays.  The hash is that of a printed form, which has the whole part of each
    value: configurations that differ behind the point only are taken for one.

    The operators of the tuner and the hash of a text are parameters. -/

namespace PbPopulation

open PbConfigFile PbDecimal PbText

/-! ## First occurrences -/

section First

variable {α β : Type} [DecidableEq β] {f : α → β} {seen : List β} {a : α} {l : List α}

/-- The elements whose key is neither among `seen` nor that of an element before. -/
def firstBy (f : α → β) : List β → List α → List α
  | _, [] => []
  | seen, a :: l => if f a ∈ seen then firstBy f seen l else a :: firstBy f (f a :: seen) l

theorem firstBy_sublist (f : α → β) (seen : List β) (l : List α) :
    (firstBy f seen l).Sublist l := by
  induction l generalizing seen with
  | nil => exact List.Sublist.slnil
  | cons a l ih =>
      rw [firstBy]
      split
      · exact (ih seen).cons a
      · exact (ih (f a :: seen)).cons_cons a

theorem firstBy_fresh : ∀ {seen}, a ∈ firstBy f seen l → f a ∉ seen := by
  induction l with
  | nil => intro seen h; cases h
  | cons b l ih =>
      intro seen h
      rw [firstBy] at h
      split at h
      · exact ih h
      · rename_i hb
        rcases List.mem_cons.mp h with rfl | h
        · exact hb
        · exact fun hs => ih h (List.mem_cons_of_mem _ hs)

/-- No two elements share a key. -/
theorem firstBy_pairwise (f : α → β) (seen : List β) (l : List α) :
    (firstBy f seen l).Pairwise (fun a b => f a ≠ f b) := by
  induction l generalizing seen with
  | nil => exact List.Pairwise.nil
  | cons a l ih =>
      rw [firstBy]
      split
      · exact ih seen
      · refine List.pairwise_cons.mpr ⟨?_, ih _⟩
        intro b hb heq
        exact firstBy_fresh hb (heq ▸ List.mem_cons_self)

/-- An element that is the first of its key stays. -/
theorem mem_firstBy {pre post : List α} (hpre : ∀ b ∈ pre, f b ≠ f a) :
    ∀ {seen}, f a ∉ seen → a ∈ firstBy f seen (pre ++ a :: post) := by
  induction pre with
  | nil =>
      intro seen hseen
      rw [List.nil_append, firstBy, if_neg hseen]
      exact List.mem_cons_self
  | cons b pre ih =>
      intro seen hseen
      have ih := @ih fun c hc => hpre c (List.mem_cons_of_mem _ hc)
      rw [List.cons_append, firstBy]
      split
      · exact ih hseen
      · refine List.mem_cons_of_mem _ (ih ?_)
        intro h
        rcases List.mem_cons.mp h with h | h
        · exact hpre b List.mem_cons_self h.symm
        · exact hseen h

/-- Each key that occurs is that of an element which stays. -/
theorem exists_firstBy (ha : a ∈ l) : ∀ {seen}, f a ∉ seen → ∃ b ∈ firstBy f seen l, f b = f a := by
  induction l with
  | nil => cases ha
  | cons b l ih =>
      intro seen hseen
      rw [firstBy]
      by_cases hab : f b = f a
      · rw [if_neg (hab ▸ hseen)]
        exact ⟨b, List.mem_cons_self, hab⟩
      · have ha : a ∈ l := by
          rcases List.mem_cons.mp ha with rfl | ha
          · exact absurd rfl hab
          · exact ha
        split
        · exact ih ha hseen
        · have hfresh : f a ∉ f b :: seen := by
            intro h
            rcases List.mem_cons.mp h with h | h
            · exact hab h.symm
            · exact hseen h
          obtain ⟨c, hc, heq⟩ := ih ha hfresh
          exact ⟨c, List.mem_cons_of_mem _ hc, heq⟩

variable {r : α → α → Prop}

/-- The elements that stay differ, and stand for all the others, exactly if keys tell
    elements apart. -/
theorem firstBy_represents_iff (hkey : ∀ a b, r a b → f a = f b)
    (htrans : ∀ a b c, r a b → r b c → r a c) (hsymm : ∀ a b, r a b → r b a) :
    (firstBy f [] l).Pairwise (fun a b => ¬ r a b) ∧ (∀ a ∈ l, ∃ b ∈ firstBy f [] l, r b a) ↔
      ∀ a ∈ l, ∀ b ∈ l, f a = f b → r a b := by
  constructor
  · rintro ⟨-, hrep⟩ a ha b hb hab
    obtain ⟨a', ha', hra⟩ := hrep a ha
    obtain ⟨b', hb', hrb⟩ := hrep b hb
    have hkeys : f a' = f b' := by rw [hkey _ _ hra, hkey _ _ hrb, hab]
    have hsame : a' = b' := by
      have hnodup : ((firstBy f [] l).map f).Nodup :=
        List.pairwise_map.mpr (firstBy_pairwise f [] l)
      exact List.inj_on_of_nodup_map hnodup ha' hb' hkeys
    exact htrans _ _ _ (hsymm _ _ hra) (hsame ▸ hrb)
  · intro h
    refine ⟨(firstBy_pairwise f [] l).imp fun hne hr => hne (hkey _ _ hr), ?_⟩
    intro a ha
    obtain ⟨b, hb, heq⟩ := exists_firstBy ha (List.not_mem_nil (a := f a))
    exact ⟨b, hb, h b ((firstBy_sublist f [] l).subset hb) a ha heq⟩

end First

/-! ## Configurations -/

/-- What the dictionary has for a name. -/
structure Setting where
  name : List Char
  value : Value
  com : List Char
deriving DecidableEq

/-- `ConfigFile`, in the order in which it is printed: the names are those that the regular
    expression of a line takes. -/
structure ConfigFile where
  values : List Setting
  sorted : values.Pairwise fun s t => s.name < t.name
  names : ∀ s ∈ values, ∀ c ∈ s.name, isKeyChar c = true

/-- What `%d` prints of a value. -/
def whole : Value → ℤ
  | .int i => i
  | .double q => q.num.tdiv q.den

def Setting.text (s : Setting) : List Char :=
  s.name ++ ' ' :: '=' :: ' ' :: intText (whole s.value)

/-- `__str__`. -/
def ConfigFile.str (c : ConfigFile) : List Char :=
  ['\n'].intercalate (c.values.map Setting.text)

/-- `__cmp__` is zero: an integer equals a double of its value. -/
def ConfigFile.Same (a b : ConfigFile) : Prop :=
  a.values.map (fun s => (s.name, s.value.asD, s.com)) =
    b.values.map (fun s => (s.name, s.value.asD, s.com))

instance (a b : ConfigFile) : Decidable (a.Same b) :=
  inferInstanceAs (Decidable (_ = _))

/-- The names and the whole parts of the values. -/
def ConfigFile.wholes (c : ConfigFile) : List (List Char × ℤ) :=
  c.values.map fun s => (s.name, whole s.value)

/-! ## Candidates -/

inductive MutationLog
  | random | crossover | mutate | elitism | hillclimb | seed
deriving DecidableEq

/-- `Candidate`, with what the search for the next population reads. -/
structure Candidate where
  config : ConfigFile
  startconfig : ConfigFile
  mutationlog : List MutationLog

def Candidate.clone (c : Candidate) : Candidate := ⟨c.config, c.config, c.mutationlog⟩

def Candidate.logMutation (c : Candidate) (m : MutationLog) : Candidate :=
  { c with mutationlog := c.mutationlog ++ [m] }

/-- The values of `tunerconfig`. -/
structure TunerConfig where
  populationSize : ℕ
  popElitismPct : ℚ≥0
  popMutatedPct : ℚ≥0
  popCrossoverPct : ℚ≥0
  popHillclimbPct : ℚ≥0
  tournamentSize : ℕ
  tournament_pos : 0 < tournamentSize

/-- `Population`, in which each member has been logged. -/
structure Population where
  initial : Candidate
  members : List Candidate
  roundNumber : ℤ
  logged : ∀ m ∈ members, m.mutationlog ≠ []

/-- The operators of `HighLevelConfig` at an input size; `Ω` are the outcomes of their random
    choices. -/
structure HighLevelConfig (Ω : Type) where
  randomize : Ω → ConfigFile → ConfigFile
  mutateChance : Ω → ConfigFile → ConfigFile
  crossover : Ω → ConfigFile → ConfigFile → ConfigFile → ConfigFile
  hillclimb : ConfigFile → ConfigFile → ConfigFile → ConfigFile

/-- What `random.sample` draws, where it is called. -/
def IsSample (tournamentSize members : ℕ) (s : List ℕ) : Prop :=
  tournamentSize < members → s.length = tournamentSize ∧ s.Nodup ∧ ∀ i ∈ s, i < members

/-- The random choices for each candidate that is generated. -/
structure Choices (Ω : Type) (tournamentSize members : ℕ) where
  mutated : ℕ → List ℕ × Ω
  crossed : ℕ → (List ℕ × List ℕ) × Ω × Ω
  random : ℕ → Ω
  mutated_sample : ∀ z, IsSample tournamentSize members (mutated z).1
  crossed_sample : ∀ z, IsSample tournamentSize members (crossed z).1.1 ∧
    IsSample tournamentSize members (crossed z).1.2

variable {Ω : Type}

/-- `zz`: the proportion is rounded. -/
def TunerConfig.zz (c : TunerConfig) (pct : ℚ≥0) : ℕ := ⌊pct * c.populationSize + 1 / 2⌋₊

/-- `tournament_select`; an index that is out of range raises an exception. -/
def tournamentSelect (tournamentSize : ℕ) (members : List Candidate) (s : List ℕ) :
    Option Candidate :=
  if members.length ≤ tournamentSize then members[0]? else s.min?.bind fun i => members[i]?

def genConfigRandom (hl : HighLevelConfig Ω) (initial : Candidate) (ω : Ω) : Candidate :=
  let c := { initial.clone with mutationlog := [] }
  { c with config := hl.randomize ω c.config }.logMutation .random

def genConfigMutate (hl : HighLevelConfig Ω) (tournamentSize : ℕ) (members : List Candidate)
    (w : List ℕ × Ω) : Option Candidate := do
  let c := (← tournamentSelect tournamentSize members w.1).clone
  return { c with config := hl.mutateChance w.2 c.config }.logMutation .mutate

def genConfigCrossover (hl : HighLevelConfig Ω) (tournamentSize : ℕ) (members : List Candidate)
    (w : (List ℕ × List ℕ) × Ω × Ω) : Option Candidate := do
  let a ← tournamentSelect tournamentSize members w.1.1
  let b ← tournamentSelect tournamentSize members w.1.2
  let c := a.clone
  let c := { c with config := hl.crossover w.2.1 a.config b.config c.config }.clone
  return { c with config := hl.mutateChance w.2.2 c.config }.logMutation .crossover

def genConfigHillclimb (hl : HighLevelConfig Ω) (p : Candidate) : Candidate :=
  let c := p.clone
  { c with config := hl.hillclimb p.startconfig p.config c.config }.logMutation .hillclimb

/-! ## The next population -/

/-- The loop over the members, which stops at `z` candidates. -/
def hillclimbs (hl : HighLevelConfig Ω) : ℕ → List Candidate → List Candidate
  | _, [] => []
  | 0, _ => []
  | z + 1, m :: ms =>
      if m.mutationlog.getLast? ∈ [some .mutate, some .crossover, some .hillclimb] then
        genConfigHillclimb hl m :: hillclimbs hl z ms
      else hillclimbs hl (z + 1) ms

/-- What is added to the elite after the first rounds. -/
def bred (c : TunerConfig) (hl : HighLevelConfig Ω) (p : Population)
    (w : Choices Ω c.tournamentSize p.members.length) : Option (List Candidate) := do
  let mutated ← (List.range (c.zz c.popMutatedPct)).mapM fun z =>
    genConfigMutate hl c.tournamentSize p.members (w.mutated z)
  let crossed ← (List.range (c.zz c.popCrossoverPct)).mapM fun z =>
    genConfigCrossover hl c.tournamentSize p.members (w.crossed z)
  return mutated ++ crossed ++ hillclimbs hl (c.zz c.popHillclimbPct) p.members

/-- The candidates, before those with an equal hash are taken out. -/
def candidates (c : TunerConfig) (hl : HighLevelConfig Ω) (p : Population)
    (w : Choices Ω c.tournamentSize p.members.length) : Option (List Candidate) :=
  (if 1 < p.roundNumber then bred c hl p w else some []).map fun new =>
    let elite := c.zz c.popElitismPct
    let pop := p.members.take elite ++ new
    let pop := pop ++ (List.range (c.populationSize - pop.length)).map fun z =>
      genConfigRandom hl p.initial (w.random z)
    (pop.take elite).map (·.logMutation .elitism) ++ pop.drop elite

def nextPopulationExploration (hash : List Char → ℤ) (c : TunerConfig) (hl : HighLevelConfig Ω)
    (p : Population) (w : Choices Ω c.tournamentSize p.members.length) :
    Option (List Candidate) :=
  (candidates c hl p w).map (firstBy (fun m => hash m.config.str) [])

/-! ## Printed forms -/

/-- Lists that agree under a finer function agree under a coarser one. -/
theorem map_eq_map_of {α β γ : Type} {f : α → β} {g : α → γ} :
    ∀ {as bs : List α}, as.map f = bs.map f →
      (∀ a ∈ as, ∀ b ∈ bs, f a = f b → g a = g b) → as.map g = bs.map g := by
  intro as
  induction as with
  | nil =>
      intro bs h _
      rw [List.map_eq_nil_iff.mp h.symm]
  | cons a as ih =>
      intro bs h hfg
      cases bs with
      | nil => cases h
      | cons b bs =>
          obtain ⟨hab, htail⟩ := List.cons.inj h
          rw [List.map_cons, List.map_cons, hfg a List.mem_cons_self b List.mem_cons_self hab,
            ih htail fun c hc d hd => hfg c (List.mem_cons_of_mem _ hc) d (List.mem_cons_of_mem _ hd)]

theorem Setting.text_injective {s t : Setting} (hs : ∀ c ∈ s.name, isKeyChar c = true)
    (ht : ∀ c ∈ t.name, isKeyChar c = true) (h : s.text = t.text) :
    (s.name, whole s.value) = (t.name, whole t.value) := by
  have hblank : ∀ n : List Char, (∀ c ∈ n, isKeyChar c = true) → ' ' ∉ n := by
    intro n hn hmem
    have := hn ' ' hmem
    revert this
    decide
  have hsplit := congrArg (splitFirst ' ') h
  rw [Setting.text, Setting.text, splitFirst_append (hblank _ hs),
    splitFirst_append (hblank _ ht)] at hsplit
  have hname : s.name = t.name := congrArg Prod.fst hsplit
  have hvalue : intText (whole s.value) = intText (whole t.value) := by
    have htail := congrArg Prod.snd hsplit
    injection htail with _ htail
    injection htail with _ htail
  have hread : ∀ i, readInt (intText i) = some (i, []) := by
    intro i
    have := readInt_intText i (t := []) fun c hc => (nomatch hc)
    rwa [List.append_nil] at this
  have hwhole : whole s.value = whole t.value := by
    have := congrArg readInt hvalue
    rw [hread, hread] at this
    exact congrArg Prod.fst (Option.some.inj this)
  rw [hname, hwhole]

theorem Setting.text_line {s : Setting} (hs : ∀ c ∈ s.name, isKeyChar c = true) :
    '\n' ∉ s.text := by
  intro h
  rw [Setting.text] at h
  rcases List.mem_append.mp h with h | h
  · have := hs _ h
    revert this
    decide
  · rcases List.mem_cons.mp h with h | h
    · revert h; decide
    · rcases List.mem_cons.mp h with h | h
      · revert h; decide
      · rcases List.mem_cons.mp h with h | h
        · revert h; decide
        · rcases intText_chars _ _ h with h | h <;> revert h <;> decide

/-- The printed form gives its lines back. -/
theorem ConfigFile.lines_str {c : ConfigFile} (hc : c.values ≠ []) :
    c.str.splitOn '\n' = c.values.map Setting.text := by
  refine List.splitOn_intercalate _ ?_ (by simpa using hc)
  intro l hl
  obtain ⟨s, hs, rfl⟩ := List.mem_map.mp hl
  exact Setting.text_line (c.names s hs)

theorem ConfigFile.str_ne_nil {c : ConfigFile} (hc : c.values ≠ []) : c.str ≠ [] := by
  intro h
  have hlines := ConfigFile.lines_str hc
  rw [h] at hlines
  obtain ⟨s, ss, hss⟩ := List.exists_cons_of_ne_nil hc
  rw [hss, List.map_cons] at hlines
  have hline : s.text = [] := (List.cons.inj hlines).1.symm
  rw [Setting.text] at hline
  simp at hline

/-- **THE PRINTED FORM**: it tells the names and the whole parts, and nothing else. -/
theorem ConfigFile.str_eq_iff {a b : ConfigFile} : a.str = b.str ↔ a.wholes = b.wholes := by
  constructor
  · intro h
    by_cases ha : a.values = [] <;> by_cases hb : b.values = []
    · rw [ConfigFile.wholes, ConfigFile.wholes, ha, hb]
    · exact absurd (h.symm.trans (by rw [ConfigFile.str, ha]; rfl)) (ConfigFile.str_ne_nil hb)
    · exact absurd (h.trans (by rw [ConfigFile.str, hb]; rfl)) (ConfigFile.str_ne_nil ha)
    · have hlines : a.values.map Setting.text = b.values.map Setting.text := by
        rw [← ConfigFile.lines_str ha, ← ConfigFile.lines_str hb, h]
      exact map_eq_map_of hlines fun s hs t ht =>
        Setting.text_injective (a.names s hs) (b.names t ht)
  · intro h
    have htext : ∀ c : ConfigFile, c.values.map Setting.text =
        c.wholes.map fun e => e.1 ++ ' ' :: '=' :: ' ' :: intText e.2 := by
      intro c
      rw [ConfigFile.wholes, List.map_map]
      rfl
    rw [ConfigFile.str, ConfigFile.str, htext, htext, h]

theorem whole_of_asD {v w : Value} (h : v.asD = w.asD) : whole v = whole w := by
  have hint : ∀ i : ℤ, ((i : ℚ).num.tdiv (i : ℚ).den) = i := by
    intro i
    rw [Rat.num_intCast, Rat.den_intCast]
    exact Int.tdiv_one i
  cases v with
  | int i =>
      cases w with
      | int j =>
          have h : (i : ℚ) = j := h
          exact Int.cast_injective h
      | double q =>
          have h : (i : ℚ) = q := h
          rw [← h]
          exact (hint i).symm
  | double p =>
      cases w with
      | int j =>
          have h : p = (j : ℚ) := h
          rw [h]
          exact hint j
      | double q =>
          have h : p = q := h
          rw [h]

theorem ConfigFile.Same.wholes {a b : ConfigFile} (h : a.Same b) : a.wholes = b.wholes := by
  refine map_eq_map_of h ?_
  intro s _ t _ hst
  have hname : s.name = t.name := congrArg Prod.fst hst
  have hvalue : whole s.value = whole t.value := whole_of_asD (congrArg (fun e => e.2.1) hst)
  rw [hname, hvalue]

/-! ## The candidates -/

variable {hash : List Char → ℤ} {c : TunerConfig} {hl : HighLevelConfig Ω} {p : Population}
  {w : Choices Ω c.tournamentSize p.members.length}

/-- The tournament has a winner if there is anyone to choose from. -/
theorem tournamentSelect_isSome {t : ℕ} {members : List Candidate} {s : List ℕ} (ht : 0 < t)
    (hs : IsSample t members.length s) :
    (tournamentSelect t members s).isSome = true ↔ members ≠ [] := by
  constructor
  · intro h
    rintro rfl
    simp [tournamentSelect] at h
  · intro hne
    have hpos : 0 < members.length := List.length_pos_iff.mpr hne
    by_cases hle : members.length ≤ t
    · rw [tournamentSelect, if_pos hle, List.getElem?_eq_getElem hpos]
      rfl
    · obtain ⟨hlen, -, hbound⟩ := hs (by omega)
      obtain ⟨i, hi⟩ : ∃ i, s.min? = some i := by
        cases hmin : s.min? with
        | none =>
            rw [List.min?_eq_none_iff.mp hmin] at hlen
            exact absurd hlen (by simp; omega)
        | some i => exact ⟨i, rfl⟩
      have hlt : i < members.length := hbound i (List.min?_mem hi)
      rw [tournamentSelect, if_neg hle, hi, Option.bind_some, List.getElem?_eq_getElem hlt]
      rfl

theorem genConfigMutate_isSome (z : ℕ) :
    (genConfigMutate hl c.tournamentSize p.members (w.mutated z)).isSome = true ↔
      p.members ≠ [] := by
  rw [← tournamentSelect_isSome c.tournament_pos (w.mutated_sample z), genConfigMutate]
  cases tournamentSelect c.tournamentSize p.members (w.mutated z).1 <;> rfl

theorem genConfigCrossover_isSome (z : ℕ) :
    (genConfigCrossover hl c.tournamentSize p.members (w.crossed z)).isSome = true ↔
      p.members ≠ [] := by
  have h₁ := tournamentSelect_isSome c.tournament_pos (w.crossed_sample z).1
  have h₂ := tournamentSelect_isSome c.tournament_pos (w.crossed_sample z).2
  rw [← h₁, genConfigCrossover]
  cases ha : tournamentSelect c.tournamentSize p.members (w.crossed z).1.1 with
  | none => rfl
  | some a =>
      cases hb : tournamentSelect c.tournamentSize p.members (w.crossed z).1.2 with
      | none =>
          rw [hb] at h₂
          rw [ha] at h₁
          exact absurd (h₂.mpr (h₁.mp rfl)) (by simp)
      | some b => rfl

theorem mapM_isSome {α β : Type} {f : α → Option β} {l : List α} :
    (l.mapM f).isSome = true ↔ ∀ a ∈ l, (f a).isSome = true := by
  induction l with
  | nil => simp
  | cons a l ih =>
      rw [List.mapM_cons, List.forall_mem_cons, ← ih]
      cases f a <;> cases l.mapM f <;> simp

theorem range_mapM_isSome {α : Type} {f : ℕ → Option α} {P : Prop} (n : ℕ)
    (h : ∀ z, (f z).isSome = true ↔ ¬ P) :
    ((List.range n).mapM f).isSome = true ↔ (P → n = 0) := by
  rw [mapM_isSome]
  constructor
  · intro hall hP
    by_contra hn
    exact (h 0).mp (hall 0 (List.mem_range.mpr (Nat.pos_of_ne_zero hn))) hP
  · intro hP z hz
    refine (h z).mpr fun hp => ?_
    rw [hP hp] at hz
    exact absurd (List.mem_range.mp hz) (Nat.not_lt_zero z)

/-- Mutants and crosses need a member. -/
theorem bred_isSome :
    (bred c hl p w).isSome = true ↔
      (p.members = [] → c.zz c.popMutatedPct = 0 ∧ c.zz c.popCrossoverPct = 0) := by
  have hmutated := range_mapM_isSome (c.zz c.popMutatedPct)
    fun z => (genConfigMutate_isSome z : (genConfigMutate hl c.tournamentSize p.members
      (w.mutated z)).isSome = true ↔ p.members ≠ [])
  have hcrossed := range_mapM_isSome (c.zz c.popCrossoverPct)
    fun z => (genConfigCrossover_isSome z : (genConfigCrossover hl c.tournamentSize p.members
      (w.crossed z)).isSome = true ↔ p.members ≠ [])
  rw [imp_and, ← hmutated, ← hcrossed, bred]
  cases (List.range (c.zz c.popMutatedPct)).mapM fun z =>
      genConfigMutate hl c.tournamentSize p.members (w.mutated z) <;>
    cases (List.range (c.zz c.popCrossoverPct)).mapM fun z =>
      genConfigCrossover hl c.tournamentSize p.members (w.crossed z) <;> simp

theorem candidates_isSome :
    (candidates c hl p w).isSome = true ↔
      (1 < p.roundNumber → p.members = [] →
        c.zz c.popMutatedPct = 0 ∧ c.zz c.popCrossoverPct = 0) := by
  rw [← bred_isSome (c := c) (p := p), candidates, Option.isSome_map]
  by_cases hround : 1 < p.roundNumber
  · rw [if_pos hround]
    exact ⟨fun h _ => h, fun h => h hround⟩
  · rw [if_neg hround]
    exact ⟨fun _ h => absurd h hround, fun _ => rfl⟩

/-- The elite comes first. -/
theorem candidates_elite {pop : List Candidate} (hpop : candidates c hl p w = some pop) :
    ∃ rest, pop = (p.members.take (c.zz c.popElitismPct)).map (·.logMutation .elitism) ++ rest := by
  rw [candidates] at hpop
  obtain ⟨new, -, hpop⟩ := Option.map_eq_some_iff.mp hpop
  rw [← hpop]
  simp only [List.append_assoc, List.take_append, List.map_append, List.take_take, min_self]
  exact ⟨_, rfl⟩

/-- What is before a member of the elite. -/
theorem candidates_split {pop : List Candidate} (hpop : candidates c hl p w = some pop)
    {i : ℕ} (hi : i < c.zz c.popElitismPct) {m : Candidate} (hm : p.members[i]? = some m) :
    ∃ post, pop = (p.members.take i).map (·.logMutation .elitism) ++
      m.logMutation .elitism :: post := by
  obtain ⟨rest, hrest⟩ := candidates_elite hpop
  obtain ⟨hlt, hget⟩ := List.getElem?_eq_some_iff.mp hm
  have htake : p.members.take (c.zz c.popElitismPct) =
      p.members.take i ++ m :: (p.members.drop (i + 1)).take (c.zz c.popElitismPct - (i + 1)) := by
    obtain ⟨k, hk⟩ := Nat.exists_eq_add_of_le hi
    rw [hk, Nat.add_sub_cancel_left, List.take_add, List.take_add_one, hm, Option.toList_some,
      List.append_assoc, List.singleton_append]
  rw [hrest, htake, List.map_append, List.map_cons, List.append_assoc, List.cons_append]
  exact ⟨_, rfl⟩

@[simp] theorem logMutation_ne_nil (m : Candidate) (e : MutationLog) :
    (m.logMutation e).mutationlog ≠ [] := by
  simp [Candidate.logMutation]

theorem mem_of_mapM {α β : Type} {f : α → Option β} {l : List α} {l' : List β}
    (h : l.mapM f = some l') {b : β} (hb : b ∈ l') : ∃ a ∈ l, f a = some b := by
  induction l generalizing l' with
  | nil =>
      rw [List.mapM_nil] at h
      rw [← Option.some.inj h] at hb
      cases hb
  | cons a l ih =>
      rw [List.mapM_cons] at h
      obtain ⟨b', hb', h⟩ := Option.bind_eq_some_iff.mp h
      obtain ⟨l'', hl'', h⟩ := Option.bind_eq_some_iff.mp h
      rw [← Option.some.inj h] at hb
      rcases List.mem_cons.mp hb with rfl | hb
      · exact ⟨a, List.mem_cons_self, hb'⟩
      · obtain ⟨a', ha', heq⟩ := ih hl'' hb
        exact ⟨a', List.mem_cons_of_mem _ ha', heq⟩

theorem hillclimbs_logged {z : ℕ} {ms : List Candidate} :
    ∀ m ∈ hillclimbs hl z ms, m.mutationlog ≠ [] := by
  induction z, ms using hillclimbs.induct with
  | case1 | case2 => intro m hm; simp [hillclimbs] at hm
  | case3 z m ms hlast ih =>
      intro m' hm'
      rw [hillclimbs, if_pos hlast] at hm'
      rcases List.mem_cons.mp hm' with rfl | hm'
      · exact logMutation_ne_nil _ _
      · exact ih m' hm'
  | case4 z m ms hlast ih =>
      intro m' hm'
      rw [hillclimbs, if_neg hlast] at hm'
      exact ih m' hm'

theorem bred_logged {new : List Candidate} (hnew : bred c hl p w = some new) :
    ∀ m ∈ new, m.mutationlog ≠ [] := by
  obtain ⟨mutated, hmutated, hnew⟩ := Option.bind_eq_some_iff.mp hnew
  obtain ⟨crossed, hcrossed, hnew⟩ := Option.bind_eq_some_iff.mp hnew
  rw [← Option.some.inj hnew]
  intro m hm
  rcases List.mem_append.mp hm with hm | hm
  · rcases List.mem_append.mp hm with hm | hm
    · obtain ⟨z, -, hz⟩ := mem_of_mapM hmutated hm
      obtain ⟨a, -, ha⟩ := Option.bind_eq_some_iff.mp hz
      rw [← Option.some.inj ha]
      exact logMutation_ne_nil _ _
    · obtain ⟨z, -, hz⟩ := mem_of_mapM hcrossed hm
      obtain ⟨a, -, ha⟩ := Option.bind_eq_some_iff.mp hz
      obtain ⟨b, -, hb⟩ := Option.bind_eq_some_iff.mp ha
      rw [← Option.some.inj hb]
      exact logMutation_ne_nil _ _
  · exact hillclimbs_logged m hm

/-- The members of the next population have been logged. -/
theorem next_logged {next : List Candidate}
    (hnext : nextPopulationExploration hash c hl p w = some next) :
    ∀ m ∈ next, m.mutationlog ≠ [] := by
  obtain ⟨pop, hpop, hnext⟩ := Option.map_eq_some_iff.mp hnext
  obtain ⟨new, hnew, hpop⟩ := Option.map_eq_some_iff.mp hpop
  have hnew : ∀ m ∈ new, m.mutationlog ≠ [] := by
    split at hnew
    · exact bred_logged hnew
    · rw [← Option.some.inj hnew]
      intro m hm
      cases hm
  intro m hm
  rw [← hnext] at hm
  have hm := (firstBy_sublist _ [] pop).subset hm
  rw [← hpop] at hm
  rcases List.mem_append.mp hm with hm | hm
  · obtain ⟨e, -, rfl⟩ := List.mem_map.mp hm
    exact logMutation_ne_nil e .elitism
  · rcases List.mem_append.mp (List.mem_of_mem_drop hm) with hm | hm
    · rcases List.mem_append.mp hm with hm | hm
      · exact p.logged m (List.mem_of_mem_take hm)
      · exact hnew m hm
    · obtain ⟨z, -, rfl⟩ := List.mem_map.mp hm
      exact logMutation_ne_nil _ _

/-- The population of the next round. -/
def Population.next {next : List Candidate}
    (hnext : nextPopulationExploration hash c hl p w = some next) : Population :=
  ⟨p.initial, next, p.roundNumber + 1, next_logged hnext⟩

/-- No configuration is lost: the new population has each configuration of the candidates
    once, and the elite but for members that equal one before them. -/
def LosesNone (hash : List Char → ℤ) (c : TunerConfig) (hl : HighLevelConfig Ω) (p : Population)
    (w : Choices Ω c.tournamentSize p.members.length) : Prop :=
  ∃ pop next, candidates c hl p w = some pop ∧
    nextPopulationExploration hash c hl p w = some next ∧
    (next.Pairwise fun a b => ¬ a.config.Same b.config) ∧
    (∀ m ∈ pop, ∃ u ∈ next, u.config.Same m.config) ∧
    ∀ i < c.zz c.popElitismPct, ∀ m, p.members[i]? = some m →
      m.logMutation .elitism ∈ next ∨
        ∃ j < i, ∃ e, p.members[j]? = some e ∧ e.config.Same m.config

theorem represents_iff (pop : List Candidate) :
    ((firstBy (fun m => hash m.config.str) [] pop).Pairwise fun a b => ¬ a.config.Same b.config) ∧
        (∀ m ∈ pop, ∃ u ∈ firstBy (fun m => hash m.config.str) [] pop, u.config.Same m.config) ↔
      ∀ a ∈ pop, ∀ b ∈ pop, hash a.config.str = hash b.config.str → a.config.Same b.config :=
  firstBy_represents_iff (r := fun a b : Candidate => a.config.Same b.config)
    (fun _ _ h => congrArg hash (ConfigFile.str_eq_iff.mpr h.wholes))
    (fun _ _ _ h₁ h₂ => Eq.trans h₁ h₂) (fun _ _ h => Eq.symm h)

/-- Hashes tell configurations apart if whole parts do, and texts do not collide. -/
theorem hash_tells_iff (pop : List Candidate) :
    (∀ a ∈ pop, ∀ b ∈ pop, hash a.config.str = hash b.config.str → a.config.Same b.config) ↔
      (∀ a ∈ pop, ∀ b ∈ pop, a.config.wholes = b.config.wholes → a.config.Same b.config) ∧
        ∀ a ∈ pop, ∀ b ∈ pop, hash a.config.str = hash b.config.str →
          a.config.str = b.config.str := by
  constructor
  · intro h
    constructor
    · intro a ha b hb hwholes
      exact h a ha b hb (congrArg hash (ConfigFile.str_eq_iff.mpr hwholes))
    · intro a ha b hb hhash
      exact ConfigFile.str_eq_iff.mpr (h a ha b hb hhash).wholes
  · rintro ⟨hwholes, hstr⟩ a ha b hb hhash
    exact hwholes a ha b hb (ConfigFile.str_eq_iff.mp (hstr a ha b hb hhash))

/-- A member of the elite stays, where hashes tell configurations apart. -/
theorem elite_stays {pop : List Candidate} (hpop : candidates c hl p w = some pop)
    (htells : ∀ a ∈ pop, ∀ b ∈ pop, hash a.config.str = hash b.config.str →
      a.config.Same b.config)
    {i : ℕ} (hi : i < c.zz c.popElitismPct) {m : Candidate} (hm : p.members[i]? = some m) :
    m.logMutation .elitism ∈ firstBy (fun m => hash m.config.str) [] pop ∨
      ∃ j < i, ∃ e, p.members[j]? = some e ∧ e.config.Same m.config := by
  obtain ⟨post, hsplit⟩ := candidates_split hpop hi hm
  by_cases hbefore : ∃ b ∈ p.members.take i, hash b.config.str = hash m.config.str
  · obtain ⟨b, hb, hhash⟩ := hbefore
    obtain ⟨j, hj, hget⟩ := List.getElem_of_mem hb
    have hji : j < i := (List.length_take_le i p.members).trans_lt' hj
    refine .inr ⟨j, hji, b, ?_, ?_⟩
    · rw [← hget, List.getElem_take, List.getElem?_eq_getElem]
    · refine htells (b.logMutation .elitism) ?_ (m.logMutation .elitism) ?_ hhash
      · rw [hsplit]
        exact List.mem_append_left _ (List.mem_map_of_mem hb)
      · rw [hsplit]
        exact List.mem_append_right _ List.mem_cons_self
  · refine .inl ?_
    rw [hsplit]
    refine mem_firstBy ?_ List.not_mem_nil
    intro b hb heq
    obtain ⟨b', hb', rfl⟩ := List.mem_map.mp hb
    exact hbefore ⟨b', hb', heq⟩

/-- **NO CONFIGURATION IS LOST** exactly if there is a member to choose from, where one has to
    be chosen, candidates that agree in their names and whole parts agree in all, and the
    hash has no collision among the printed forms. -/
theorem losesNone_iff (hash : List Char → ℤ) (c : TunerConfig) (hl : HighLevelConfig Ω)
    (p : Population) (w : Choices Ω c.tournamentSize p.members.length) :
    LosesNone hash c hl p w ↔
      (1 < p.roundNumber → p.members = [] →
        c.zz c.popMutatedPct = 0 ∧ c.zz c.popCrossoverPct = 0) ∧
      ∀ pop, candidates c hl p w = some pop →
        (∀ a ∈ pop, ∀ b ∈ pop, a.config.wholes = b.config.wholes → a.config.Same b.config) ∧
        ∀ a ∈ pop, ∀ b ∈ pop, hash a.config.str = hash b.config.str →
          a.config.str = b.config.str := by
  constructor
  · rintro ⟨pop, next, hpop, hnext, hdiff, hrep, -⟩
    refine ⟨candidates_isSome.mp (Option.isSome_iff_exists.mpr ⟨pop, hpop⟩), ?_⟩
    intro pop' hpop'
    obtain rfl : pop = pop' := Option.some.inj (hpop.symm.trans hpop')
    rw [nextPopulationExploration, hpop, Option.map_some] at hnext
    rw [← Option.some.inj hnext] at hdiff hrep
    exact (hash_tells_iff pop).mp ((represents_iff pop).mp ⟨hdiff, hrep⟩)
  · rintro ⟨hsome, htells⟩
    have hpops : (candidates c hl p w).isSome = true := candidates_isSome.mpr hsome
    obtain ⟨pop, hpop⟩ := Option.isSome_iff_exists.mp hpops
    have htells := (hash_tells_iff pop).mpr (htells pop hpop)
    obtain ⟨hdiff, hrep⟩ := (represents_iff pop).mpr htells
    refine ⟨pop, _, hpop, ?_, hdiff, hrep, ?_⟩
    · rw [nextPopulationExploration, hpop, Option.map_some]
    · intro i hi m hm
      exact elite_stays hpop htells hi hm

/-! ## A tunable behind the point -/

/-- A configuration with one tunable. -/
def ratio (q : ℚ) : ConfigFile where
  values := [⟨['r'], .double q, ['#', ' ', 'd', 'o', 'u', 'b', 'l', 'e']⟩]
  sorted := List.pairwise_singleton _ _
  names := fun s hs => by
    obtain rfl := List.mem_singleton.mp hs
    show ∀ c ∈ ['r'], isKeyChar c = true
    exact List.all_iff_forall_prop.mp (by decide)

def quarter : Candidate := ⟨ratio (1 / 4), ratio (1 / 4), [.seed]⟩

def threeQuarters : Candidate := ⟨ratio (3 / 4), ratio (1 / 4), [.random]⟩

/-- A quarter and three quarters, after the first round. -/
def quarters : Population where
  initial := ⟨ratio (1 / 4), ratio (1 / 4), []⟩
  members := [quarter, threeQuarters]
  roundNumber := 1
  logged := by decide

def tunerDefaults : TunerConfig := ⟨64, 1 / 5, 1 / 4, 1 / 4, 1 / 5, 5, by decide⟩

/-- Operators that leave a configuration as it is. -/
def still : HighLevelConfig Unit := ⟨fun _ c => c, fun _ c => c, fun _ _ _ c => c, fun _ _ c => c⟩

def noChoices : Choices Unit tunerDefaults.tournamentSize quarters.members.length where
  mutated _ := ([], ())
  crossed _ := (([], []), (), ())
  random _ := ()
  mutated_sample _ := fun h => absurd h (by decide)
  crossed_sample _ := ⟨fun h => absurd h (by decide), fun h => absurd h (by decide)⟩

/-- Three quarters are lost: they are printed as a quarter is, whatever the hash. -/
theorem three_quarters_lost :
    ¬ LosesNone (fun t => t.foldl (fun h x => h * 1114112 + x.toNat + 1) 0) tunerDefaults still
      quarters noChoices := by
  rintro ⟨pop, next, hpop, hnext, hdiff, hrep, -⟩
  rw [nextPopulationExploration, hpop, Option.map_some] at hnext
  rw [← Option.some.inj hnext] at hdiff hrep
  have htells := (represents_iff pop).mp ⟨hdiff, hrep⟩
  obtain ⟨rest, rfl⟩ := candidates_elite hpop
  have hzz : 2 ≤ tunerDefaults.zz tunerDefaults.popElitismPct := by decide +kernel
  have hmem : ∀ m ∈ quarters.members, m.logMutation .elitism ∈
      (quarters.members.take (tunerDefaults.zz tunerDefaults.popElitismPct)).map
        (·.logMutation .elitism) ++ rest := by
    intro m hm
    rw [List.take_of_length_le hzz]
    exact List.mem_append_left _ (List.mem_map_of_mem hm)
  have hsame := htells _ (hmem quarter (by simp [quarters])) _
    (hmem threeQuarters (by simp [quarters])) (by decide +kernel)
  revert hsame
  decide +kernel

end PbPopulation
