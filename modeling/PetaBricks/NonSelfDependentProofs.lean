import Mathlib.Algebra.Order.Ring.Int
import Mathlib.Data.List.Basic
import PetaBricks.UselessDimensionModel

/-! # Regions that are not self-dependent — `getNonSelfDependentRegions`

    Both loops add a region for some other region of another matrix, not for all others, and the
    second, over the regions written, adds the ones read again.  So every region read comes twice
    for each region written of another matrix, and a region written never comes. -/

namespace PbUselessDimension

open PbDataDependency (Matrix)
open PbScheduler (Rule)

/-! ## Pairs that differ -/

section Pairs

variable {R N : Type} [DecidableEq R] [DecidableEq N] (name : R → N)

/-- How many regions have another name. -/
def others (x : R) (ts : List R) : ℕ := ts.countP fun o => name x ≠ name o

/-- The first loop. -/
def firstLoop (fs ts : List R) : List R :=
  fs.flatMap fun i => (ts.filter fun o => name i ≠ name o).map fun _ => i

/-- The second loop. -/
def secondLoop (fs ts : List R) : List R :=
  ts.flatMap fun o => fs.filter fun i => name i ≠ name o

/-- The regions of one list that share no name with the other list. -/
def apart (fs ts : List R) : List R := fs.filter fun i => ∀ o ∈ ts, name i ≠ name o

variable {name} {x : R} {fs ts : List R}

omit [DecidableEq R] in
theorem others_eq_zero : others name x ts = 0 ↔ ∀ o ∈ ts, name x = name o := by
  rw [others, List.countP_eq_zero]
  refine forall₂_congr fun o _ => ?_
  rw [decide_eq_true_eq, not_not]

theorem count_firstLoop (x : R) (fs ts : List R) :
    (firstLoop name fs ts).count x = fs.count x * others name x ts := by
  induction fs with
  | nil => exact (Nat.zero_mul _).symm
  | cons i fs ih =>
      have hcons : firstLoop name (i :: fs) ts =
          List.replicate (others name i ts) i ++ firstLoop name fs ts := by
        rw [others, List.countP_eq_length_filter, ← List.map_const']
        rfl
      rw [hcons, List.count_append, ih, List.count_cons, Nat.add_mul, Nat.add_comm]
      by_cases hx : i = x
      · rw [hx, List.count_replicate_self, if_pos (beq_self_eq_true x), Nat.one_mul]
      · rw [List.count_replicate, if_neg (mt beq_iff_eq.mp hx), if_neg (mt beq_iff_eq.mp hx),
          Nat.zero_mul]

theorem count_secondLoop (x : R) (fs ts : List R) :
    (secondLoop name fs ts).count x = fs.count x * others name x ts := by
  induction ts with
  | nil => rfl
  | cons o ts ih =>
      have hcons : secondLoop name fs (o :: ts) =
          (fs.filter fun i => name i ≠ name o) ++ secondLoop name fs ts := rfl
      rw [hcons, List.count_append, ih, others, others, List.countP_cons, Nat.mul_add,
        Nat.add_comm]
      by_cases hx : name x ≠ name o
      · have hkept : (fs.filter fun i => name i ≠ name o).count x = fs.count x :=
          List.count_filter (decide_eq_true hx)
        rw [hkept, if_pos (decide_eq_true hx), Nat.mul_one]
      · have hnone : x ∉ fs.filter fun i => name i ≠ name o := by
          intro hmem
          exact hx (of_decide_eq_true (List.mem_filter.mp hmem).2)
        rw [List.count_eq_zero_of_not_mem hnone, if_neg (mt of_decide_eq_true hx), Nat.mul_zero]

theorem count_loops (x : R) (fs ts : List R) :
    (firstLoop name fs ts ++ secondLoop name fs ts).count x =
      fs.count x * (others name x ts * 2) := by
  rw [List.count_append, count_firstLoop, count_secondLoop, ← Nat.mul_two, Nat.mul_assoc]

omit [DecidableEq R] in
theorem mem_loops : x ∈ firstLoop name fs ts ++ secondLoop name fs ts ↔
    x ∈ fs ∧ ∃ o ∈ ts, name x ≠ name o := by
  rw [List.mem_append, firstLoop, secondLoop, List.mem_flatMap, List.mem_flatMap]
  constructor
  · rintro (⟨i, hi, hx⟩ | ⟨o, ho, hx⟩)
    · obtain ⟨o, ho, rfl⟩ := List.mem_map.mp hx
      obtain ⟨ho, hne⟩ := List.mem_filter.mp ho
      exact ⟨hi, o, ho, of_decide_eq_true hne⟩
    · obtain ⟨hx, hne⟩ := List.mem_filter.mp hx
      exact ⟨hx, o, ho, of_decide_eq_true hne⟩
  · rintro ⟨hx, o, ho, hne⟩
    exact Or.inr ⟨o, ho, List.mem_filter.mpr ⟨hx, decide_eq_true hne⟩⟩

omit [DecidableEq R] in
theorem mem_apart : x ∈ apart name fs ts ↔ x ∈ fs ∧ ∀ o ∈ ts, name x ≠ name o := by
  rw [apart, List.mem_filter, decide_eq_true_eq]

/-- **WHEN THE LOOPS ARE RIGHT**: there is one name only, on both sides or on none. -/
theorem perm_apart_iff :
    (firstLoop name fs ts ++ secondLoop name fs ts).Perm (apart name fs ts ++ apart name ts fs) ↔
      (fs = [] ↔ ts = []) ∧ ∀ i ∈ fs, ∀ o ∈ ts, name i = name o := by
  constructor
  · intro hperm
    -- a region written of no other name would have to be listed as one that is read
    have hwritten : ∀ o ∈ ts, ∃ i ∈ fs, name o = name i := by
      intro o ho
      by_contra hnone
      have hall : ∀ i ∈ fs, name o ≠ name i := fun i hi heq => hnone ⟨i, hi, heq⟩
      have hmem := hperm.mem_iff.mpr
        (List.mem_append_right (apart name fs ts) (mem_apart.mpr ⟨ho, hall⟩))
      exact hall o (mem_loops.mp hmem).1 rfl
    -- a region read is listed an even number of times
    have hread : ∀ i ∈ fs, ¬ ∀ o ∈ ts, name i ≠ name o := by
      intro i hi hall
      have hcount := hperm.count_eq i
      have hnot : i ∉ apart name ts fs := fun hmem => (mem_apart.mp hmem).2 i hi rfl
      have hone : (apart name fs ts).count i = fs.count i :=
        List.count_filter (decide_eq_true hall)
      rw [count_loops, List.count_append, hone, List.count_eq_zero_of_not_mem hnot,
        Nat.add_zero] at hcount
      have hpos := List.count_pos_iff.mpr hi
      have htwice := Nat.eq_of_mul_eq_mul_left hpos (hcount.trans (Nat.mul_one _).symm)
      omega
    have hsame : ∀ i ∈ fs, ∀ o ∈ ts, name i = name o := by
      intro i hi
      by_contra hne
      obtain ⟨o, hne⟩ := not_forall.mp hne
      obtain ⟨ho, hne⟩ := Classical.not_imp.mp hne
      rcases List.mem_append.mp (hperm.mem_iff.mp (mem_loops.mpr ⟨hi, o, ho, hne⟩)) with h | h
      · exact hread i hi (mem_apart.mp h).2
      · exact (mem_apart.mp h).2 i hi rfl
    refine ⟨⟨fun hfs => ?_, fun hts => ?_⟩, hsame⟩
    · refine List.eq_nil_iff_forall_not_mem.mpr fun o ho => ?_
      obtain ⟨i, hi, -⟩ := hwritten o ho
      rw [hfs] at hi
      cases hi
    · refine List.eq_nil_iff_forall_not_mem.mpr fun i hi => hread i hi fun o ho => ?_
      rw [hts] at ho
      cases ho
  · rintro ⟨hnil, hsame⟩
    have hloops : firstLoop name fs ts ++ secondLoop name fs ts = [] := by
      refine List.eq_nil_iff_forall_not_mem.mpr fun x hx => ?_
      obtain ⟨hx, o, ho, hne⟩ := mem_loops.mp hx
      exact hne (hsame x hx o ho)
    have hapart : apart name fs ts = [] := by
      refine List.eq_nil_iff_forall_not_mem.mpr fun i hi => ?_
      obtain ⟨hi, hall⟩ := mem_apart.mp hi
      obtain ⟨o, ho⟩ := List.exists_mem_of_ne_nil ts fun hts => List.ne_nil_of_mem hi (hnil.mpr hts)
      exact hall o ho (hsame i hi o ho)
    have hapart' : apart name ts fs = [] := by
      refine List.eq_nil_iff_forall_not_mem.mpr fun o ho => ?_
      obtain ⟨ho, hall⟩ := mem_apart.mp ho
      obtain ⟨i, hi⟩ := List.exists_mem_of_ne_nil fs fun hfs => List.ne_nil_of_mem ho (hnil.mp hfs)
      exact hall i hi (hsame i hi o ho).symm
    rw [hloops, hapart, hapart']
    exact .refl _

end Pairs

/-! ## The regions of a rule -/

namespace Transform

variable {F : Type} {st : StaticScheduler F} {r : Rule}

/-- The regions read of a matrix that is not written and the regions written of a matrix that is
    not read. -/
def nonSelfDependentRegions (st : StaticScheduler F) (r : Rule) : List (Region F) :=
  apart Region.matrix (st.fromRegions r) (st.toRegions r) ++
    apart Region.matrix (st.toRegions r) (st.fromRegions r)

/-- The regions of one matrix. -/
def getSameMatrixRegions (regions : List (Region F)) (matrix : Matrix) : List (Region F) :=
  regions.filter fun q => q.matrix = matrix

theorem getNonSelfDependentRegions_eq_loops (st : StaticScheduler F) (r : Rule) :
    getNonSelfDependentRegions st r =
      firstLoop Region.matrix (st.fromRegions r) (st.toRegions r) ++
        secondLoop Region.matrix (st.fromRegions r) (st.toRegions r) := rfl

/-- The regions are listed each once, and the pass over a matrix considers those of the matrix. -/
structure ListsNonSelfDependent (st : StaticScheduler F) (r : Rule) : Prop where
  listed : (getNonSelfDependentRegions st r).Perm (nonSelfDependentRegions st r)
  considered : ∀ matrix q,
    q ∈ getSameMatrixRegions (getNonSelfDependentRegions st r) matrix ↔
      q ∈ nonSelfDependentRegions st r ∧ q.matrix = matrix

theorem listsNonSelfDependent_of_perm
    (hperm : (getNonSelfDependentRegions st r).Perm (nonSelfDependentRegions st r)) :
    ListsNonSelfDependent st r where
  listed := hperm
  considered := by
    intro matrix q
    rw [getSameMatrixRegions, List.mem_filter, decide_eq_true_eq, hperm.mem_iff]

variable [DecidableEq F]

/-- The regions a pass over the rules considers for a matrix. -/
theorem filterNonSelfDependentAccesses_eq {S : Type} {M : PbMaxima.MaximaWrapper F S}
    {fm : Formulas M} (tx : Transform M fm) (st : StaticScheduler F) (dims : List Nat)
    (matrix : Matrix) :
    tx.filterNonSelfDependentAccesses st dims matrix =
      tx.rules.foldlM (fun dims rule => filterAccess M st dims
        (getSameMatrixRegions (getNonSelfDependentRegions st rule) matrix)) dims := rfl

/-- **NON-SELF-DEPENDENT REGIONS**: they are listed as they should be exactly for a rule that
    reads and writes regions of one matrix only, and for one that has no regions. -/
theorem listsNonSelfDependent_iff :
    ListsNonSelfDependent st r ↔
      (st.fromRegions r = [] ↔ st.toRegions r = []) ∧
        ∀ i ∈ st.fromRegions r, ∀ o ∈ st.toRegions r, i.matrix = o.matrix := by
  rw [← perm_apart_iff, ← getNonSelfDependentRegions_eq_loops]
  constructor
  · intro hlists
    exact hlists.listed
  · intro hperm
    exact listsNonSelfDependent_of_perm hperm

/-- A rule that computes a matrix from another one, with one region each. -/
def oneToOne : StaticScheduler Int where
  size _ := [4]
  region _ := ⟨1, [(0, 4)], []⟩
  toRegions _ := [⟨1, [(0, 1)], []⟩]
  fromRegions _ := [⟨0, [(0, 1)], []⟩]
  definitions _ := []

/-- The region read is listed twice, the one written not at all. -/
theorem not_listsNonSelfDependent_oneToOne :
    getNonSelfDependentRegions oneToOne 0 = [⟨0, [(0, 1)], []⟩, ⟨0, [(0, 1)], []⟩] ∧
      nonSelfDependentRegions oneToOne 0 = [⟨0, [(0, 1)], []⟩, ⟨1, [(0, 1)], []⟩] ∧
      ¬ ListsNonSelfDependent oneToOne 0 := by
  refine ⟨by decide, by decide, ?_⟩
  intro hlists
  exact absurd hlists.listed (by decide)

end Transform

end PbUselessDimension
