import PetaBricks.StableSortProofs
import PetaBricks.LearningCompilerModel
import Mathlib.Data.List.MinMax

/-! # The learning compiler installs the best candidate — when

    `compileLearningHeuristics` knows the variants only by the position of their candidates.
    It gets as far as the installation if no variant raised `AlwaysCrashes` and every sort
    key exists; the positions are those of the directories if the variants without a
    candidate come last; and the order is right if what is better comes first by the key,
    where integer division leaves of the number of sizes only whether it is one. -/

namespace PbLearningCompiler

open PbStableSort

/-! ## What is asked -/

/-- The sizes on which there is a result, with the mean. -/
def Candidate.measured (c : Candidate) : List (ℕ × ℚ) :=
  c.times.filterMap fun p => p.2.map fun t => (p.1, t)

/-- The mean on the largest of these sizes. -/
def Candidate.lastTime (c : Candidate) : Option ℚ := (c.measured.argmax Prod.fst).map Prod.snd

/-- Tested on more sizes, or on as many and faster on the largest. -/
def Better (a b : Indexed) : Prop :=
  b.candidate.measured.length < a.candidate.measured.length ∨
    a.candidate.measured.length = b.candidate.measured.length ∧
      ∃ s t, a.candidate.lastTime = some s ∧ b.candidate.lastTime = some t ∧ s < t

/-- The candidates of the variants that did not crash, with their directories. -/
def survivors (directory : ℕ) : List Outcome → List Indexed
  | [] => []
  | ⟨some c, false⟩ :: os => ⟨c, directory⟩ :: survivors (directory + 1) os
  | ⟨_, _⟩ :: os => survivors (directory + 1) os

/-- The score of a rank, for each directory. -/
def creditsOf (ranked : List Indexed) : List (ℕ × ℚ) :=
  ranked.zipIdx.map fun p => (p.1.originalIndex, ((ranked.length : ℚ) - p.2) / ranked.length)

/-- The survivors are ranked with none behind a worse one, credited by rank, and the first is
    installed. -/
def Right (os : List Outcome) : Prop :=
  survivors 0 os ≠ [] → ∃ best rest,
    (best :: rest).Perm (survivors 0 os) ∧
    (best :: rest).Pairwise (fun a b => ¬ Better b a) ∧
    compileLearningHeuristics os = ⟨creditsOf (best :: rest), .ok best.originalIndex⟩

/-! ## What it takes -/

/-- The time the sort key takes: at the size that is the largest if the sizes are the powers
    of two from one on. -/
def Candidate.keyTime (c : Candidate) : Option ℚ := (c.times.lookup (2 ^ (c.times.length - 1))).join

/-- `a` is sorted before `b`. -/
def SortedBefore (a b : Indexed) : Prop :=
  (a.candidate.times.length ≠ 1 ∧ b.candidate.times.length = 1) ∨
    (a.candidate.times.length = 1 ↔ b.candidate.times.length = 1) ∧
      ∃ s t, a.candidate.keyTime = some s ∧ b.candidate.keyTime = some t ∧
        (s < t ∨ s = t ∧ a.originalIndex < b.originalIndex)

/-- No variant crashes, the ones with a candidate come first, the time of every key has been
    measured, and the keys put better candidates first. -/
structure Good (os : List Outcome) : Prop where
  no_crash : ∀ o ∈ os, o.crashed = false
  some_first : os.Pairwise fun a b => b.best.isSome → a.best.isSome
  has_key : ∀ c ∈ survivors 0 os, c.candidate.keyTime ≠ none
  sorted : ∀ a ∈ survivors 0 os, ∀ b ∈ survivors 0 os, Better a b → SortedBefore a b

/-! ## Lists of candidates -/

/-- What the variant adds to the list. -/
def Outcome.added (o : Outcome) : List (Option Candidate) :=
  o.best.toList.map some ++ if o.crashed then [none] else []

theorem tryVariant_eq (cs : List (Option Candidate)) (o : Outcome) :
    tryVariant cs o = cs ++ o.added := by
  obtain ⟨best, crashed⟩ := o
  cases crashed <;> simp [tryVariant, autotune, Outcome.added]

theorem allCandidates_eq (os : List Outcome) : allCandidates os = os.flatMap Outcome.added := by
  rw [List.flatMap_eq_foldl, allCandidates]
  congr
  funext cs o
  exact tryVariant_eq cs o

/-- The candidates numbered from a count on. -/
def numbered (count : ℕ) : List Candidate → List Indexed
  | [] => []
  | c :: cs => ⟨c, count⟩ :: numbered (count + 1) cs

theorem addOriginalIndex_some (cs : List Candidate) (count : ℕ) :
    addOriginalIndex count (cs.map some) = (numbered count cs).map some := by
  induction cs generalizing count with
  | nil => rfl
  | cons c cs ih => rw [List.map_cons, addOriginalIndex, ih, numbered, List.map_cons]

theorem none_mem_addOriginalIndex {cs : List (Option Candidate)} (h : none ∈ cs) (count : ℕ) :
    none ∈ addOriginalIndex count cs := by
  induction cs generalizing count with
  | nil => cases h
  | cons c cs ih =>
      cases c with
      | none => exact List.mem_cons_self
      | some c =>
          have h := (List.mem_cons.mp h).resolve_left nofun
          exact List.mem_cons_of_mem _ (ih h _)

/-- The candidates of all variants. -/
def bests (os : List Outcome) : List Candidate := os.filterMap Outcome.best

theorem allCandidates_of_no_crash {os : List Outcome} (h : ∀ o ∈ os, o.crashed = false) :
    allCandidates os = (bests os).map some := by
  rw [allCandidates_eq]
  induction os with
  | nil => rfl
  | cons o os ih =>
      obtain ⟨ho, hos⟩ := List.forall_mem_cons.mp h
      rw [List.flatMap_cons, ih hos, Outcome.added, ho, bests, bests]
      obtain ⟨best, crashed⟩ := o
      cases best <;> simp

theorem none_mem_allCandidates {os : List Outcome} {o : Outcome} (ho : o ∈ os)
    (hcrash : o.crashed = true) : none ∈ allCandidates os := by
  rw [allCandidates_eq, List.mem_flatMap]
  refine ⟨o, ho, ?_⟩
  rw [Outcome.added, hcrash]
  exact List.mem_append_right _ List.mem_cons_self

theorem numbered_index (cs : List Candidate) (count : ℕ) :
    (numbered count cs).map Indexed.originalIndex = List.range' count cs.length := by
  induction cs generalizing count with
  | nil => rfl
  | cons c cs ih => rw [numbered, List.map_cons, ih, List.length_cons, List.range'_succ]

theorem numbered_pairwise (cs : List Candidate) (count : ℕ) :
    (numbered count cs).Pairwise fun a b => a.originalIndex < b.originalIndex := by
  rw [← List.pairwise_map (f := Indexed.originalIndex) (R := (· < ·)), numbered_index]
  exact List.pairwise_lt_range'

theorem numbered_candidate (cs : List Candidate) (count : ℕ) :
    (numbered count cs).map Indexed.candidate = cs := by
  induction cs generalizing count with
  | nil => rfl
  | cons c cs ih => rw [numbered, List.map_cons, ih]

theorem eq_of_maps {l l' : List Indexed}
    (hcandidate : l.map Indexed.candidate = l'.map Indexed.candidate)
    (hindex : l.map Indexed.originalIndex = l'.map Indexed.originalIndex) : l = l' := by
  have hzip : ∀ l : List Indexed,
      (l.map Indexed.candidate).zipWith Indexed.mk (l.map Indexed.originalIndex) = l := by
    intro l
    induction l with
    | nil => rfl
    | cons c l ih => rw [List.map_cons, List.map_cons, List.zipWith_cons_cons, ih]
  rw [← hzip l, hcandidate, hindex, hzip]

theorem index_injective {l : List Indexed}
    (h : l.Pairwise fun a b => a.originalIndex < b.originalIndex) {a b : Indexed} (ha : a ∈ l)
    (hb : b ∈ l) (heq : a.originalIndex = b.originalIndex) : a = b := by
  by_contra hne
  rw [List.pairwise_iff_forall_sublist] at h
  rcases pair_sublist ha hb hne with hab | hba
  · exact absurd (h hab) (heq ▸ lt_irrefl _)
  · exact absurd (h hba) (heq ▸ lt_irrefl _)

/-! ## Directories and numbers -/

theorem survivors_of_no_crash {os : List Outcome} (h : ∀ o ∈ os, o.crashed = false)
    (directory : ℕ) : (survivors directory os).map Indexed.candidate = bests os := by
  induction os generalizing directory with
  | nil => rfl
  | cons o os ih =>
      obtain ⟨ho, hos⟩ := List.forall_mem_cons.mp h
      obtain ⟨best, crashed⟩ := o
      have hcrashed : crashed = false := ho
      subst hcrashed
      cases best with
      | none => exact ih hos _
      | some c => exact congrArg (c :: ·) (ih hos _)

theorem le_of_mem_survivors {os : List Outcome} {directory : ℕ} {c : Indexed}
    (h : c ∈ survivors directory os) : directory ≤ c.originalIndex := by
  induction os generalizing directory with
  | nil => cases h
  | cons o os ih =>
      obtain ⟨_ | d, _ | _⟩ := o
      · exact (Nat.le_succ _).trans (ih h)
      · exact (Nat.le_succ _).trans (ih h)
      · rcases List.mem_cons.mp h with rfl | h
        · exact le_rfl
        · exact (Nat.le_succ _).trans (ih h)
      · exact (Nat.le_succ _).trans (ih h)

theorem survivors_pairwise (os : List Outcome) (directory : ℕ) :
    (survivors directory os).Pairwise fun a b => a.originalIndex < b.originalIndex := by
  induction os generalizing directory with
  | nil => exact .nil
  | cons o os ih =>
      obtain ⟨_ | d, _ | _⟩ := o
      · exact ih _
      · exact ih _
      · exact List.pairwise_cons.mpr ⟨fun b hb => le_of_mem_survivors hb, ih _⟩
      · exact ih _

/-- Without crashes the directories are the numbers exactly if the candidates come first. -/
theorem survivors_eq_numbered_iff {os : List Outcome} (h : ∀ o ∈ os, o.crashed = false)
    (directory : ℕ) : survivors directory os = numbered directory (bests os) ↔
      os.Pairwise fun a b => b.best.isSome → a.best.isSome := by
  induction os generalizing directory with
  | nil => exact ⟨fun _ => .nil, fun _ => rfl⟩
  | cons o os ih =>
      obtain ⟨ho, hos⟩ := List.forall_mem_cons.mp h
      obtain ⟨best, crashed⟩ := o
      have hcrashed : crashed = false := ho
      subst hcrashed
      cases best with
      | some c =>
          have hstep : survivors directory (⟨some c, false⟩ :: os) =
              numbered directory (bests (⟨some c, false⟩ :: os)) ↔
              survivors (directory + 1) os = numbered (directory + 1) (bests os) := by
            simp [survivors, bests, numbered]
          rw [hstep, ih hos, List.pairwise_cons]
          exact ⟨fun hp => ⟨fun _ _ _ => rfl, hp⟩, And.right⟩
      | none =>
          rw [List.pairwise_cons]
          have hbests : bests (⟨none, false⟩ :: os) = bests os := rfl
          have hskip : survivors directory (⟨none, false⟩ :: os) = survivors (directory + 1) os :=
            rfl
          rw [hbests, hskip]
          constructor
          · intro heq
            -- the numbers start at a directory that has no candidate
            have hnil : bests os = [] := by
              cases hb : bests os with
              | nil => rfl
              | cons c cs =>
                  rw [hb, numbered] at heq
                  have hle := le_of_mem_survivors (heq ▸ List.mem_cons_self)
                  exact absurd hle (Nat.not_succ_le_self _)
            have hnone : ∀ o ∈ os, o.best = none := by
              intro o ho
              cases hb : o.best with
              | none => rfl
              | some c =>
                  have hmem : c ∈ bests os := List.mem_filterMap.mpr ⟨o, ho, hb⟩
                  rw [hnil] at hmem
                  cases hmem
            have habsurd : ∀ o ∈ os, ¬ o.best.isSome := by
              intro o ho hsome
              rw [hnone o ho] at hsome
              cases hsome
            refine ⟨fun o ho hsome => absurd hsome (habsurd o ho), ?_⟩
            exact List.pairwise_of_forall_mem_list fun _ _ o ho hsome =>
              absurd hsome (habsurd o ho)
          · rintro ⟨hnone, -⟩
            have hnil : bests os = [] := by
              rw [bests, List.filterMap_eq_nil_iff]
              intro o ho
              cases hb : o.best with
              | none => rfl
              | some c => cases hnone o ho (by rw [hb]; rfl)
            rw [hnil, numbered]
            have hmap := survivors_of_no_crash hos (directory + 1)
            rw [hnil, List.map_eq_nil_iff] at hmap
            exact hmap

/-! ## The sort -/

/-- The key, where it exists. -/
def speedKey (c : Indexed) : Key := (candidateKey (some c.candidate)).getD ⊤

theorem candidateKey_eq (c : Candidate) : candidateKey (some c) =
    c.keyTime.map fun t => ((toLex (1 / c.times.length, t) : ℕ ×ₗ ℚ) : Key) := rfl

theorem sortBySpeed_some {cs : List Indexed} (h : ∀ c ∈ cs, c.candidate.keyTime ≠ none) :
    sortBySpeed (cs.map some) = some ((sort speedKey cs).map some) := by
  have hkeyed : (cs.map some).mapM (fun c =>
      (candidateKey (c.map Indexed.candidate)).map fun k => (k, c)) =
      some (cs.map fun c => (speedKey c, some c)) := by
    induction cs with
    | nil => rfl
    | cons c cs ih =>
        obtain ⟨hc, hcs⟩ := List.forall_mem_cons.mp h
        obtain ⟨t, ht⟩ := Option.ne_none_iff_exists'.mp hc
        rw [List.map_cons, List.mapM_cons, ih hcs]
        simp [speedKey, candidateKey_eq, ht]
  have hsort : (cs.map fun c => (speedKey c, some c)).insertionSort (fun a b => a.1 ≤ b.1) =
      (sort speedKey cs).map fun c => (speedKey c, some c) :=
    (List.map_insertionSort (fun a b => speedKey a ≤ speedKey b)
      (fun a b : Key × Option Indexed => a.1 ≤ b.1) (fun c => (speedKey c, some c)) cs
      fun a _ b _ => Iff.rfl).symm
  rw [sortBySpeed, hkeyed]
  simp [hsort]

theorem sortBySpeed_none {cs : List (Option Indexed)} {c : Indexed} (hc : some c ∈ cs)
    (h : c.candidate.keyTime = none) : sortBySpeed cs = none := by
  have hkeyed : cs.mapM (fun c =>
      (candidateKey (c.map Indexed.candidate)).map fun k => (k, c)) = none := by
    induction cs with
    | nil => cases hc
    | cons d cs ih =>
        rw [List.mapM_cons]
        rcases List.mem_cons.mp hc with rfl | hc
        · simp [candidateKey_eq, h]
        · rw [ih hc]
          cases (candidateKey (d.map Indexed.candidate)) <;> rfl
  rw [sortBySpeed, hkeyed]
  rfl

theorem sortBySpeed_perm {cs ranked : List (Option Indexed)} (h : sortBySpeed cs = some ranked) :
    ranked.Perm cs := by
  rw [sortBySpeed] at h
  obtain ⟨keyed, hkeyed, h⟩ := Option.bind_eq_some_iff.mp h
  cases h
  have hsnd : keyed.map Prod.snd = cs := by
    clear h
    induction cs generalizing keyed with
    | nil => cases hkeyed; rfl
    | cons c cs ih =>
        rw [List.mapM_cons] at hkeyed
        obtain ⟨k, hk, hkeyed⟩ := Option.bind_eq_some_iff.mp hkeyed
        obtain ⟨ks, hks, hkeyed⟩ := Option.bind_eq_some_iff.mp hkeyed
        cases hkeyed
        obtain ⟨_, _, rfl⟩ := Option.map_eq_some_iff.mp hk
        rw [List.map_cons, ih ks hks]
  exact hsnd ▸ (List.perm_insertionSort _ keyed).map Prod.snd

/-- The key compares what `SortedBefore` says. -/
theorem first_iff {a b : Indexed} (ha : a.candidate.keyTime ≠ none)
    (hb : b.candidate.keyTime ≠ none) :
    First speedKey Indexed.originalIndex a b ↔ SortedBefore a b := by
  obtain ⟨s, hs⟩ := Option.ne_none_iff_exists'.mp ha
  obtain ⟨t, ht⟩ := Option.ne_none_iff_exists'.mp hb
  have hlength : ∀ {c : Candidate}, c.keyTime ≠ none → c.times.length ≠ 0 := by
    intro c hc hzero
    refine hc ?_
    rw [Candidate.keyTime, List.eq_nil_of_length_eq_zero hzero]
    rfl
  have hdiv : ∀ {n : ℕ}, n ≠ 0 → 1 / n = if n = 1 then 1 else 0 := by
    intro n hn
    split
    · next h => rw [h]
    · next h => exact Nat.div_eq_of_lt (by omega)
  rw [First, SortedBefore, speedKey, speedKey, candidateKey_eq, candidateKey_eq, hs, ht,
    hdiv (hlength ha), hdiv (hlength hb)]
  simp only [Option.map_some, Option.getD_some, WithTop.coe_lt_coe, WithTop.coe_inj,
    Prod.Lex.toLex_lt_toLex, EmbeddingLike.apply_eq_iff_eq, Prod.mk.injEq]
  by_cases hka : a.candidate.times.length = 1 <;> by_cases hkb : b.candidate.times.length = 1 <;>
    simp [hka, hkb]

theorem Better.irrefl (a : Indexed) : ¬ Better a a := by
  rintro (h | ⟨-, s, t, hs, ht, hlt⟩)
  · exact lt_irrefl _ h
  · rw [hs] at ht
    cases ht
    exact lt_irrefl _ hlt

/-! ## Credits -/

theorem storeCandidatesDataInDB_some (cs : List Indexed) (n count : ℕ) :
    storeCandidatesDataInDB n count (cs.map some) =
      ((cs.zipIdx count).map fun p => (p.1.originalIndex, ((n : ℚ) - p.2) / n), true) := by
  induction cs generalizing count with
  | nil => rfl
  | cons c cs ih =>
      rw [List.map_cons, storeCandidatesDataInDB, ih, List.zipIdx_cons, List.map_cons]

theorem storeCandidatesDataInDB_none {cs : List (Option Indexed)} (h : none ∈ cs) (n count : ℕ) :
    (storeCandidatesDataInDB n count cs).2 = false := by
  induction cs generalizing count with
  | nil => cases h
  | cons c cs ih =>
      cases c with
      | none => rfl
      | some c => exact ih ((List.mem_cons.mp h).resolve_left nofun) _

theorem creditsOf_index (ranked : List Indexed) :
    (creditsOf ranked).map Prod.fst = ranked.map Indexed.originalIndex := by
  rw [creditsOf, List.map_map]
  have hfst : (ranked.zipIdx.map Prod.fst).map Indexed.originalIndex =
      ranked.map Indexed.originalIndex := by rw [List.zipIdx_map_fst]
  rw [← hfst, List.map_map]
  rfl

/-! ## The result -/

/-- With a `None` in the list nothing is installed. -/
theorem fails_of_none {os : List Outcome} (h : none ∈ allCandidates os) (i : ℕ) :
    (compileLearningHeuristics os).installed ≠ .ok i := by
  rw [compileLearningHeuristics]
  have hnumbered := none_mem_addOriginalIndex h 0
  split
  · nofun
  · nofun
  · nofun
  · next best rest hsort =>
      have hmem := (sortBySpeed_perm hsort).mem_iff.mpr hnumbered
      simp [storeCandidatesDataInDB_none hmem]

/-- Without crashes and with all keys the numbered candidates are ranked and credited. -/
theorem compile_of_no_crash {os : List Outcome} (hcrash : ∀ o ∈ os, o.crashed = false)
    (hkey : ∀ c ∈ numbered 0 (bests os), c.candidate.keyTime ≠ none) {best : Indexed}
    {rest : List Indexed} (hsort : sort speedKey (numbered 0 (bests os)) = best :: rest) :
    compileLearningHeuristics os = ⟨creditsOf (best :: rest), .ok best.originalIndex⟩ := by
  have hsorted : sortBySpeed (addOriginalIndex 0 (allCandidates os)) =
      some (some best :: rest.map some) := by
    rw [allCandidates_of_no_crash hcrash, addOriginalIndex_some, sortBySpeed_some hkey, hsort,
      List.map_cons]
  rw [compileLearningHeuristics, hsorted]
  have hstore := storeCandidatesDataInDB_some (best :: rest) (best :: rest).length 0
  rw [List.map_cons] at hstore
  have hlength : (some best :: rest.map some).length = (best :: rest).length := by simp
  simp only [hlength, hstore, if_true]
  rfl

/-- Without crashes every candidate is numbered, so a missing key fails the run. -/
theorem key_of_installed {os : List Outcome} (hcrash : ∀ o ∈ os, o.crashed = false) {i : ℕ}
    (h : (compileLearningHeuristics os).installed = .ok i) :
    ∀ c ∈ numbered 0 (bests os), c.candidate.keyTime ≠ none := by
  intro c hc hnone
  rw [compileLearningHeuristics, allCandidates_of_no_crash hcrash, addOriginalIndex_some,
    sortBySpeed_none (List.mem_map_of_mem hc) hnone] at h
  cases h

/-- Lists with distinct values of `f` are known by these values. -/
theorem eq_of_map_eq {α β : Type} {f : α → β} {l l' : List α}
    (hinj : ∀ a ∈ l, ∀ b ∈ l', f a = f b → a = b) (h : l.map f = l'.map f) : l = l' := by
  induction l generalizing l' with
  | nil => exact (List.map_eq_nil_iff.mp h.symm).symm
  | cons a l ih =>
      cases l' with
      | nil => cases h
      | cons b l' =>
          obtain ⟨hab, hl⟩ := List.cons_eq_cons.mp h
          have heq := hinj a List.mem_cons_self b List.mem_cons_self hab
          have htail := ih (fun a ha b hb => hinj a (List.mem_cons_of_mem _ ha) b
            (List.mem_cons_of_mem _ hb)) hl
          rw [heq, htail]

/-- **THE LEARNING COMPILER IS RIGHT** exactly if no variant crashes, those without a
    candidate come last, and the sort keys exist and put better candidates first. -/
theorem right_iff (os : List Outcome) : Right os ↔ (survivors 0 os ≠ [] → Good os) := by
  refine forall_congr' fun hsome => ⟨?_, ?_⟩
  · rintro ⟨best, rest, hperm, hranked, hresult⟩
    have hinstalled : (compileLearningHeuristics os).installed = .ok best.originalIndex := by
      rw [hresult]
    have hcrash : ∀ o ∈ os, o.crashed = false := by
      intro o ho
      by_contra h
      exact fails_of_none (none_mem_allCandidates ho (by simpa using h)) _ hinstalled
    have hkey := key_of_installed hcrash hinstalled
    -- what the program ranks are the numbered candidates
    obtain ⟨first, others, hsort⟩ : ∃ first others,
        sort speedKey (numbered 0 (bests os)) = first :: others := by
      cases hs : sort speedKey (numbered 0 (bests os)) with
      | cons first others => exact ⟨first, others, rfl⟩
      | nil =>
          have hnil := (sort_perm speedKey (numbered 0 (bests os))).symm
          rw [hs, List.perm_nil] at hnil
          have hlength := congrArg List.length (survivors_of_no_crash hcrash 0)
          have hzero := congrArg (List.length ∘ List.map Indexed.originalIndex) hnil
          simp only [Function.comp_apply, numbered_index, List.length_range', List.map_nil,
            List.length_nil] at hzero
          rw [List.length_map, hzero] at hlength
          exact absurd (List.eq_nil_of_length_eq_zero hlength) hsome
    have hcompile := compile_of_no_crash hcrash hkey hsort
    -- the credits tell that its numbers are the directories of the ranked survivors
    have hindex : (first :: others).map Indexed.originalIndex =
        (best :: rest).map Indexed.originalIndex := by
      rw [← creditsOf_index, ← creditsOf_index]
      exact congrArg (List.map Prod.fst ∘ Result.credits) (hcompile.symm.trans hresult)
    have hsortperm : (first :: others).Perm (numbered 0 (bests os)) := hsort ▸ sort_perm speedKey _
    have hindices : (survivors 0 os).map Indexed.originalIndex =
        (numbered 0 (bests os)).map Indexed.originalIndex := by
      have hs : ((survivors 0 os).map Indexed.originalIndex).Pairwise (· < ·) :=
        List.pairwise_map.mpr (survivors_pairwise os 0)
      have hn : ((numbered 0 (bests os)).map Indexed.originalIndex).Pairwise (· < ·) :=
        List.pairwise_map.mpr (numbered_pairwise (bests os) 0)
      refine List.Perm.eq_of_pairwise (fun a b _ _ hab hba => absurd hab (lt_asymm hba)) hs hn ?_
      have hmap := hperm.symm.map Indexed.originalIndex
      rw [← hindex] at hmap
      exact hmap.trans (hsortperm.map _)
    have hnumbered : survivors 0 os = numbered 0 (bests os) := by
      refine eq_of_maps ?_ hindices
      rw [survivors_of_no_crash hcrash, numbered_candidate]
    have hsame : first :: others = best :: rest := by
      refine eq_of_map_eq (fun a ha b hb hab => ?_) hindex
      have ha := hsortperm.mem_iff.mp ha
      have hb := hnumbered ▸ hperm.mem_iff.mp hb
      exact index_injective (numbered_pairwise (bests os) 0) ha hb hab
    rw [← hsame, ← hsort] at hranked
    have hfirst := (sort_respects_iff speedKey (numbered_pairwise (bests os) 0) Better
      Better.irrefl).mp hranked
    refine ⟨hcrash, (survivors_eq_numbered_iff hcrash 0).mp hnumbered, hnumbered ▸ hkey, ?_⟩
    intro a ha b hb hbetter
    rw [hnumbered] at ha hb
    exact (first_iff (hkey a ha) (hkey b hb)).mp (hfirst a ha b hb hbetter)
  · intro hgood
    have hnumbered := (survivors_eq_numbered_iff hgood.no_crash 0).mpr hgood.some_first
    have hkey : ∀ c ∈ numbered 0 (bests os), c.candidate.keyTime ≠ none :=
      hnumbered ▸ hgood.has_key
    have hperm := sort_perm speedKey (numbered 0 (bests os))
    have hranked := (sort_respects_iff speedKey (numbered_pairwise (bests os) 0) Better
      Better.irrefl).mpr ?_
    · cases hs : sort speedKey (numbered 0 (bests os)) with
      | nil =>
          rw [hs, ← hnumbered] at hperm
          exact absurd (List.perm_nil.mp hperm.symm) hsome
      | cons best rest =>
          rw [hs] at hperm hranked
          exact ⟨best, rest, hnumbered ▸ hperm, hranked,
            compile_of_no_crash hgood.no_crash hkey hs⟩
    · intro a ha b hb hbetter
      refine (first_iff (hkey a ha) (hkey b hb)).mpr ?_
      exact hgood.sorted a (hnumbered ▸ ha) b (hnumbered ▸ hb) hbetter

/-- One size, half a second; one to four, in five seconds; one and two, in one. -/
def oneSize : Candidate := ⟨[(1, some (1 / 2))], by decide⟩
def threeSizes : Candidate := ⟨[(1, some 1), (2, some 2), (4, some 5)], by decide⟩
def twoSizes : Candidate := ⟨[(1, some 1), (2, some 1)], by decide⟩

/-- A crash of the first variant credits its heuristics with the rank of the second and ends
    in an exception; without crashes a candidate tested on two sizes is installed before one
    tested on three. -/
theorem crash_credits_other :
    compileLearningHeuristics [⟨none, true⟩, ⟨some oneSize, false⟩] =
      ⟨[(0, 1)], .error .attribute⟩ ∧
    compileLearningHeuristics [⟨some threeSizes, false⟩, ⟨some twoSizes, false⟩] =
      ⟨[(1, 1), (0, 1 / 2)], .ok 1⟩ ∧
    ¬ (∀ os, Right os) := by
  have hcrash : compileLearningHeuristics [⟨none, true⟩, ⟨some oneSize, false⟩] =
      ⟨[(0, 1)], .error .attribute⟩ := by decide +kernel
  refine ⟨hcrash, by decide +kernel, fun hall => ?_⟩
  obtain ⟨best, rest, -, -, hresult⟩ := hall [⟨none, true⟩, ⟨some oneSize, false⟩] nofun
  rw [hcrash] at hresult
  cases congrArg Result.installed hresult

end PbLearningCompiler
