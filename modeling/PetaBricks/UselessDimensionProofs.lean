import Mathlib.Data.List.Lex
import PetaBricks.OutcomeProofs
import PetaBricks.UselessDimensionModel

/-!
# Removing a useless dimension once — when it is sound

A comparison that returns tells the truth, so the ordered set of dependency vectors of a matrix
has the same values as all its vectors, and `findUselessDimensions` finds the last dimension
exactly when every vector is zero but for a last `-1` and every access it looks at ends at the
size of the dimension.  What it looks at are the regions that a rule reads beside writing some
other matrix; the regions written are never among them.  The removal visits the choices of every
node, so it visits a rule once for each node the rule is a choice of, and the second visit has
nothing left to remove.
-/

namespace PbUselessDimension

open PbOrderedMap PbMaxima PbDataDependency PbOutcome
open PbScheduler (Node Rule)

/-- An index out of range, which takes `B`, or an assertion that fails. -/
def OutOfRangeIf (B : Prop) (e : Stop) : Prop := e = .outOfRange → B

theorem OutOfRangeIf.assertion {B : Prop} : OutOfRangeIf B .assertion := fun h => nomatch h

theorem OutOfRangeIf.imp {B B' : Prop} (h : B → B') (e : Stop) (he : OutOfRangeIf B e) :
    OutOfRangeIf B' e := fun hr => h (he hr)

namespace Transform

variable {F S : Type} [DecidableEq F] {M : MaximaWrapper F S} {fm : Formulas M}

/-! ## The values of dependency vectors -/

/-- The value of each formula. -/
def values (M : MaximaWrapper F S) (v : CoordinateFormula F) (s : S) : List Int :=
  v.map (fun f => M.eval f s)

omit [DecidableEq F] in
@[simp] theorem length_values (v : CoordinateFormula F) (s : S) :
    (values M v s).length = v.length := List.length_map _

/-- The comparison of vectors is the lexicographic one, of their values. -/
theorem compareFrom_ends {a b : CoordinateFormula F} (hlen : a.length = b.length) :
    Ends (compareFrom M a b) (OutOfRangeIf (a = []))
      (fun answer => ∀ s, answer = true ↔ values M a s < values M b s) := by
  induction a generalizing b with
  | nil =>
      cases b with
      | nil => exact Ends.error (fun _ => rfl)
      | cons y ys => cases hlen
  | cons x xs ih =>
      cases b with
      | nil => cases hlen
      | cons y ys =>
          have hlen' : xs.length = ys.length := Nat.succ.inj hlen
          rw [compareFrom]
          cases heq : M.compare x .eq y with
          | none => exact Ends.error OutOfRangeIf.assertion
          | some answer =>
              have hxy := MaximaWrapper.holds_of_compare heq
              cases answer with
              | true =>
                  have hval : ∀ s, M.eval x s = M.eval y s := fun s => (hxy s).mpr rfl
                  have hcons : ∀ s, values M (x :: xs) s < values M (y :: ys) s ↔
                      values M xs s < values M ys s := by
                    intro s
                    simp only [values, List.map_cons, List.cons_lt_cons_iff, hval s,
                      lt_self_iff_false, false_or, true_and]
                  simp only
                  by_cases hnil : xs = []
                  · subst hnil
                    have hys : ys = [] := List.eq_nil_of_length_eq_zero hlen'.symm
                    subst hys
                    refine Ends.ok ?_
                    intro s
                    rw [hcons s]
                    simp [values]
                  · rw [if_neg (by simpa using hnil)]
                    refine (ih hlen').mono (OutOfRangeIf.imp (fun h => absurd h hnil)) ?_
                    intro r hr s
                    rw [hcons s]
                    exact hr s
              | false =>
                  have hval : ∀ s, M.eval x s ≠ M.eval y s := by
                    intro s h
                    exact Bool.noConfusion ((hxy s).mp h)
                  simp only
                  cases hlt : M.compare x .lt y with
                  | none => exact Ends.error OutOfRangeIf.assertion
                  | some answer =>
                      have hltxy := MaximaWrapper.holds_of_compare hlt
                      refine Ends.ok ?_
                      intro s
                      rw [← hltxy s]
                      simp only [values, List.map_cons, List.cons_lt_cons_iff, hval s, false_and,
                        or_false]
                      rfl

theorem dataDepSetCompare_ends (a b : CoordinateFormula F) :
    Ends (dataDepSetCompare M a b) (OutOfRangeIf (a = []))
      (fun answer => ∀ s, answer = true ↔
        a.length < b.length ∨ a.length = b.length ∧ values M a s < values M b s) := by
  rw [dataDepSetCompare]
  by_cases hlen : a.length = b.length
  · rw [if_neg (not_not.mpr hlen)]
    refine (compareFrom_ends hlen).mono (fun e h => h) ?_
    intro r hr s
    rw [hr s]
    simp [hlen]
  · rw [if_pos hlen]
    refine Ends.ok ?_
    intro s
    simp [hlen]

/-- Inserting a vector adds it, or leaves one of the same values in its place. -/
theorem insertVector_ends [Inhabited S] (v : CoordinateFormula F)
    (set : List (CoordinateFormula F)) :
    Ends (insertVector M v set) (OutOfRangeIf (v = [] ∨ [] ∈ set))
      (fun set' => (∀ x ∈ set', x = v ∨ x ∈ set) ∧ (∀ x ∈ set, x ∈ set') ∧
        ∃ x ∈ set', ∀ s, values M x s = values M v s) := by
  induction set with
  | nil =>
      refine Ends.ok ⟨?_, ?_, v, List.mem_singleton_self v, fun s => rfl⟩
      · intro x hx
        exact Or.inl (List.mem_singleton.mp hx)
      · intro x hx
        exact absurd hx List.not_mem_nil
  | cons x rest ih =>
      rw [insertVector]
      refine Ends.bind ((dataDepSetCompare_ends x v).mono (OutOfRangeIf.imp ?_)
        (fun _ h => h)) ?_
      · rintro rfl
        exact Or.inr List.mem_cons_self
      intro before hbefore
      cases before with
      | true =>
          refine Ends.bind (ih.mono (OutOfRangeIf.imp ?_) (fun _ h => h)) ?_
          · exact Or.imp_right (List.mem_cons_of_mem x)
          rintro rest' ⟨hsub, hkeep, y, hy, hval⟩
          refine Ends.ok ⟨?_, ?_, y, List.mem_cons_of_mem x hy, hval⟩
          · intro z hz
            rcases List.mem_cons.mp hz with rfl | hz
            · exact Or.inr List.mem_cons_self
            · exact (hsub z hz).imp_right (List.mem_cons_of_mem x)
          · intro z hz
            rcases List.mem_cons.mp hz with rfl | hz
            · exact List.mem_cons_self
            · exact List.mem_cons_of_mem x (hkeep z hz)
      | false =>
          refine Ends.bind ((dataDepSetCompare_ends v x).mono (OutOfRangeIf.imp Or.inl)
            (fun _ h => h)) ?_
          intro after hafter
          cases after with
          | true =>
              refine Ends.ok ⟨?_, ?_, v, List.mem_cons_self, fun s => rfl⟩
              · intro z hz
                exact List.mem_cons.mp hz
              · intro z hz
                exact List.mem_cons_of_mem v hz
          | false =>
              refine Ends.ok ⟨fun z hz => Or.inr hz, fun z hz => hz, x, List.mem_cons_self, ?_⟩
              intro s
              have h1 := (hbefore s).not.mp (by simp)
              have h2 := (hafter s).not.mp (by simp)
              have hlen : x.length = v.length := by
                by_contra hne
                rcases Nat.lt_or_gt_of_ne hne with hlt | hlt
                · exact h1 (Or.inl hlt)
                · exact h2 (Or.inl hlt)
              rcases lt_trichotomy (values M x s) (values M v s) with hlt | heq | hgt
              · exact absurd (Or.inr ⟨hlen, hlt⟩) h1
              · exact heq
              · exact absurd (Or.inr ⟨hlen.symm, hgt⟩) h2

/-! ## Collecting them -/

variable (tx : Transform M fm)

/-- The vectors that are collected, with their matrices. -/
def dataDependencyVectors : List (Matrix × CoordinateFormula F) :=
  tx.rules.flatMap tx.dataDependencyVectorMap

/-- A set stands for the vectors of a matrix among some entries. -/
structure StandsFor (M : MaximaWrapper F S) (entries : List (Matrix × CoordinateFormula F))
    (m : Matrix) (set : List (CoordinateFormula F)) : Prop where
  ne_nil : set ≠ []
  sound : ∀ x ∈ set, (m, x) ∈ entries
  complete : ∀ v, (m, v) ∈ entries → ∃ x ∈ set, ∀ s, values M x s = values M v s

/-- A map holds the sets of the temporary matrices with a vector among some entries. -/
structure Collected (entries : List (Matrix × CoordinateFormula F))
    (map : MatrixDataDependencyMap F) : Prop where
  stands : ∀ m set, map.find m = some set → tx.isThrough m = true ∧ StandsFor M entries m set
  complete : ∀ m v, tx.isThrough m = true → (m, v) ∈ entries → (map.find m).isSome = true

variable {tx}

omit [DecidableEq F] in
theorem Collected.start : Collected tx [] (∅ : MatrixDataDependencyMap F) where
  stands := fun _ _ h => nomatch h
  complete := fun _ _ _ h => absurd h List.not_mem_nil

omit [DecidableEq F] in
theorem StandsFor.other {entries : List (Matrix × CoordinateFormula F)} {m : Matrix}
    {set : List (CoordinateFormula F)} (h : StandsFor M entries m set)
    {e : Matrix × CoordinateFormula F} (he : e.1 ≠ m) : StandsFor M (entries ++ [e]) m set where
  ne_nil := h.ne_nil
  sound := fun x hx => List.mem_append_left _ (h.sound x hx)
  complete := by
    intro v hv
    rcases List.mem_append.mp hv with hv | hv
    · exact h.complete v hv
    · rw [← List.mem_singleton.mp hv] at he
      exact absurd rfl he

theorem importVector_ends [Inhabited S] {entries : List (Matrix × CoordinateFormula F)}
    {map : MatrixDataDependencyMap F} (h : Collected tx entries map)
    (e : Matrix × CoordinateFormula F) :
    Ends (tx.importVector map e)
      (OutOfRangeIf (tx.isThrough e.1 = true ∧ (e.1, []) ∈ entries ++ [e]))
      (Collected tx (entries ++ [e])) := by
  obtain ⟨m, v⟩ := e
  rw [importVector]
  by_cases hthrough : tx.isThrough m = true
  · rw [if_pos hthrough]
    refine Ends.bind ((insertVector_ends v ((map.find m).getD [])).mono
      (OutOfRangeIf.imp ?_) (fun _ hs => hs)) ?_
    · rintro (rfl | hnil)
      · exact ⟨hthrough, List.mem_append_right _ (List.mem_singleton_self _)⟩
      · cases hfind : map.find m with
        | none =>
            rw [hfind] at hnil
            exact absurd hnil List.not_mem_nil
        | some set =>
            rw [hfind] at hnil
            exact ⟨hthrough, List.mem_append_left _ ((h.stands m set hfind).2.sound [] hnil)⟩
    rintro set' ⟨hsub, hkeep, y, hy, hval⟩
    refine Ends.ok ⟨?_, ?_⟩
    · intro m' set hset
      rw [OrderedMap.find_insert] at hset
      by_cases hm : m' = m
      · subst hm
        rw [if_pos rfl, Option.some.injEq] at hset
        subst hset
        refine ⟨hthrough, List.ne_nil_of_mem hy, ?_, ?_⟩
        · intro x hx
          rcases hsub x hx with rfl | hx
          · exact List.mem_append_right _ (List.mem_singleton_self _)
          · cases hfind : map.find m' with
            | none =>
                rw [hfind] at hx
                exact absurd hx List.not_mem_nil
            | some set =>
                rw [hfind] at hx
                exact List.mem_append_left _ ((h.stands m' set hfind).2.sound x hx)
        · intro w hw
          rcases List.mem_append.mp hw with hw | hw
          · obtain ⟨set, hfind⟩ := Option.isSome_iff_exists.mp
              (h.complete m' w hthrough hw)
            obtain ⟨x, hx, hxw⟩ := (h.stands m' set hfind).2.complete w hw
            refine ⟨x, hkeep x ?_, hxw⟩
            rw [hfind]
            exact hx
          · cases List.mem_singleton.mp hw
            exact ⟨y, hy, hval⟩
      · rw [if_neg hm] at hset
        obtain ⟨ht, hs⟩ := h.stands m' set hset
        exact ⟨ht, hs.other (fun h => hm h.symm)⟩
    · intro m' w ht hw
      rw [OrderedMap.find_insert]
      by_cases hm : m' = m
      · rw [if_pos hm]
        rfl
      · rw [if_neg hm]
        rcases List.mem_append.mp hw with hw | hw
        · exact h.complete m' w ht hw
        · cases List.mem_singleton.mp hw
          exact absurd rfl hm
  · rw [if_neg hthrough]
    refine Ends.ok ⟨?_, ?_⟩
    · intro m' set hset
      obtain ⟨ht, hs⟩ := h.stands m' set hset
      refine ⟨ht, hs.other ?_⟩
      rintro rfl
      exact hthrough ht
    · intro m' w ht hw
      rcases List.mem_append.mp hw with hw | hw
      · exact h.complete m' w ht hw
      · cases List.mem_singleton.mp hw
        exact absurd ht hthrough

/-- **THE COLLECTED SETS STAND FOR ALL VECTORS** of the temporary matrices. -/
theorem getDataDepsForTemporaryMatrixes_ends [Inhabited S] :
    Ends tx.getDataDepsForTemporaryMatrixes
      (OutOfRangeIf (∃ m, tx.isThrough m = true ∧ (m, []) ∈ tx.dataDependencyVectors))
      (Collected tx tx.dataDependencyVectors) := by
  refine Ends.foldlM
    (fun rules map => Collected tx (rules.flatMap tx.dataDependencyVectorMap) map)
    Collected.start ?_
  intro rules r rest hrules map hmap
  have hinner : Ends (tx.importDataDepsFromRule map r)
      (OutOfRangeIf (∃ m, tx.isThrough m = true ∧ (m, []) ∈ tx.dataDependencyVectors))
      (Collected tx (rules.flatMap tx.dataDependencyVectorMap ++
        tx.dataDependencyVectorMap r)) := by
    refine Ends.foldlM
      (fun done map => Collected tx (rules.flatMap tx.dataDependencyVectorMap ++ done) map)
      (by rw [List.append_nil]; exact hmap) ?_
    intro done e rest' hdone map' hmap'
    rw [← List.append_assoc]
    refine (importVector_ends hmap' e).mono (OutOfRangeIf.imp ?_) (fun _ h => h)
    rintro ⟨ht, hnil⟩
    refine ⟨e.1, ht, ?_⟩
    rw [dataDependencyVectors, hrules, List.flatMap_append, List.flatMap_cons, hdone]
    rw [List.append_assoc] at hnil
    rcases List.mem_append.mp hnil with hnil | hnil
    · exact List.mem_append_left _ hnil
    · refine List.mem_append_right _ (List.mem_append_left _ ?_)
      rcases List.mem_append.mp hnil with hnil | hnil
      · exact List.mem_append_left _ hnil
      · rw [← List.mem_singleton.mp hnil]
        exact List.mem_append_right _ List.mem_cons_self
  rw [List.flatMap_append, List.flatMap_singleton]
  exact hinner

/-! ## Finding the last dimension useless -/

/-- All vectors of a set have one value in a dimension. -/
def AlwaysAt (M : MaximaWrapper F S) (set : List (CoordinateFormula F)) (dimension : Nat)
    (value : Int) : Prop :=
  ∀ v ∈ set, ∀ s, (values M v s)[dimension]? = some value

theorem isDimensionDependencyAlwaysEqualTo_ends [Inhabited S] (dimension : Nat) (value : Int)
    (set : List (CoordinateFormula F)) :
    Ends (isDimensionDependencyAlwaysEqualTo fm dimension value set)
      (OutOfRangeIf (∃ v ∈ set, v.length ≤ dimension))
      (fun answer => answer = true ↔ AlwaysAt M set dimension value) := by
  induction set with
  | nil =>
      refine Ends.ok (iff_of_true rfl ?_)
      intro v hv
      exact absurd hv List.not_mem_nil
  | cons v rest ih =>
      rw [isDimensionDependencyAlwaysEqualTo]
      cases hd : v[dimension]? with
      | none => exact Ends.error (fun _ => ⟨v, List.mem_cons_self, List.getElem?_eq_none_iff.mp hd⟩)
      | some dependency =>
          have hvalue : ∀ s, (values M v s)[dimension]? = some (M.eval dependency s) := by
            intro s
            rw [values, List.getElem?_map, hd]
            rfl
          simp only
          cases hcompare : M.compare dependency .eq (fm.literal value) with
          | none => exact Ends.error OutOfRangeIf.assertion
          | some answer =>
              have heq : ∀ s, M.eval dependency s = value ↔ answer = true := by
                intro s
                have hholds := MaximaWrapper.holds_of_compare hcompare s
                rw [Op.Holds, fm.eval_literal] at hholds
                exact hholds
              cases answer with
              | false =>
                  refine Ends.ok (iff_of_false Bool.noConfusion ?_)
                  intro hall
                  have hv := hall v List.mem_cons_self default
                  rw [hvalue default, Option.some.injEq] at hv
                  exact Bool.noConfusion ((heq default).mp hv)
              | true =>
                  refine ih.mono (OutOfRangeIf.imp ?_) ?_
                  · rintro ⟨w, hw, hlen⟩
                    exact ⟨w, List.mem_cons_of_mem v hw, hlen⟩
                  intro r hr
                  rw [hr, AlwaysAt, AlwaysAt, List.forall_mem_cons]
                  refine (and_iff_right ?_).symm
                  intro s
                  rw [hvalue s, (heq s).mpr rfl]

theorem dimensionStatus_ends [Inhabited S] {set : List (CoordinateFormula F)} (hne : set ≠ [])
    (dim : Nat) :
    Ends (dimensionStatus fm set dim) (OutOfRangeIf (∃ v ∈ set, v.length ≤ dim))
      (fun status => (status = .ALWAYS_MINUS1 ↔ AlwaysAt M set dim (-1)) ∧
        (status = .ALWAYS_ZERO ↔ AlwaysAt M set dim 0)) := by
  obtain ⟨v, hv⟩ := List.exists_mem_of_ne_nil set hne
  have hexcl : AlwaysAt M set dim (-1) → ¬ AlwaysAt M set dim 0 := by
    intro h1 h0
    have := (h1 v hv default).symm.trans (h0 v hv default)
    cases this
  rw [dimensionStatus]
  refine Ends.bind (isDimensionDependencyAlwaysEqualTo_ends dim (-1) set) ?_
  intro minus1 hminus1
  cases minus1 with
  | true =>
      have h1 := hminus1.mp rfl
      exact Ends.ok ⟨iff_of_true rfl h1, iff_of_false nofun (hexcl h1)⟩
  | false =>
      have h1 := hminus1.not.mp Bool.noConfusion
      refine Ends.bind (isDimensionDependencyAlwaysEqualTo_ends dim 0 set) ?_
      intro zero hzero
      cases zero with
      | true => exact Ends.ok ⟨iff_of_false nofun h1, iff_of_true rfl (hzero.mp rfl)⟩
      | false =>
          exact Ends.ok ⟨iff_of_false nofun h1,
            iff_of_false nofun (hzero.not.mp Bool.noConfusion)⟩

/-- The distance of a cell in the last of `d + 1` dimensions, one below. -/
def Behind (M : MaximaWrapper F S) (d : Nat) (v : CoordinateFormula F) : Prop :=
  ∀ s, values M v s = List.replicate d 0 ++ [-1]

omit [DecidableEq F] in
theorem behind_iff {d : Nat} {set : List (CoordinateFormula F)}
    (hlen : ∀ v ∈ set, v.length = d + 1) :
    (∀ v ∈ set, Behind M d v) ↔
      (∀ i < d, AlwaysAt M set i 0) ∧ AlwaysAt M set d (-1) := by
  constructor
  · intro h
    constructor
    · intro i hi v hv s
      rw [h v hv s, List.getElem?_append_left (by simpa using hi),
        List.getElem?_replicate_of_lt hi]
    · intro v hv s
      rw [h v hv s]
      simp
  · rintro ⟨hzero, hminus1⟩ v hv s
    apply List.ext_getElem?
    intro i
    rcases Nat.lt_trichotomy i d with hi | rfl | hi
    · rw [hzero i hi v hv s, List.getElem?_append_left (by simpa using hi),
        List.getElem?_replicate_of_lt hi]
    · rw [hminus1 v hv s]
      simp
    · have hv' := hlen v hv
      rw [List.getElem?_eq_none (by rw [length_values]; omega),
        List.getElem?_eq_none (by simp; omega)]

/-- The access of a region ends at the size of a dimension, as far as the compiler knows. -/
def EndsAtSize (M : MaximaWrapper F S) (st : StaticScheduler F) (d : Nat) (q : Region F) :
    Prop :=
  ∃ c dimSize, q.coords[d]? = some c ∧ (st.size q.matrix)[d]? = some dimSize ∧
    M.comparePessimistically c.2 .eq dimSize = true

/-- The vector of useless dimensions holds one dimension, or none, as a condition says. -/
def Decides (d : Nat) (P : Prop) (dims : List Nat) : Prop :=
  (P → dims = [d]) ∧ (¬ P → dims = [])

theorem Decides.cases {d : Nat} {P : Prop} {dims : List Nat} (h : Decides d P dims) :
    P ∧ dims = [d] ∨ ¬ P ∧ dims = [] := by
  by_cases hP : P
  · exact Or.inl ⟨hP, h.1 hP⟩
  · exact Or.inr ⟨hP, h.2 hP⟩

theorem Decides.of_iff {d : Nat} {P Q : Prop} {dims : List Nat} (h : Decides d P dims)
    (hPQ : P ↔ Q) : Decides d Q dims := propext hPQ ▸ h

/-- One turn of the loop that erases while it iterates: there is at most one dimension, and the
    loop has left the vector when that is erased. -/
theorem filterDimensions_ends {st : StaticScheduler F} {q : Region F} {d : Nat}
    (hq : d < (st.size q.matrix).length → d < q.coords.length) {P : Prop} {dims : List Nat}
    (h : Decides d P dims) :
    Ends (filterDimensions M st q dims.length 0 dims) (OutOfRangeIf False)
      (Decides d (P ∧ EndsAtSize M st d q)) := by
  rcases h.cases with ⟨hP, rfl⟩ | ⟨hP, rfl⟩
  · have herased : Ends (if (st.size q.matrix).length ≤ d then .ok true
        else accessInTheMiddle M st q d) (OutOfRangeIf False)
        (fun erased => erased = false ↔ EndsAtSize M st d q) := by
      by_cases hd : (st.size q.matrix).length ≤ d
      · rw [if_pos hd]
        refine Ends.ok (iff_of_false nofun ?_)
        rintro ⟨c, dimSize, _, hsize, _⟩
        rw [List.getElem?_eq_none hd] at hsize
        cases hsize
      · have hd' : d < (st.size q.matrix).length := Nat.lt_of_not_le hd
        rw [if_neg hd, accessInTheMiddle, List.getElem?_eq_getElem (hq hd'),
          List.getElem?_eq_getElem hd']
        refine Ends.ok ?_
        rw [EndsAtSize, List.getElem?_eq_getElem (hq hd'), List.getElem?_eq_getElem hd']
        simp
    rw [List.length_singleton, filterDimensions]
    simp only [List.getElem?_cons_zero]
    refine Ends.bind herased ?_
    intro erased he
    rw [filterDimensions]
    cases erased with
    | true =>
        have hnot := he.not.mp Bool.noConfusion
        exact Ends.ok ⟨fun hh => absurd hh.2 hnot, fun _ => rfl⟩
    | false =>
        have hends := he.mp rfl
        exact Ends.ok ⟨fun _ => rfl, fun hh => absurd ⟨hP, hends⟩ hh⟩
  · exact Ends.ok ⟨fun hh => absurd hh.1 hP, fun _ => rfl⟩

theorem filterAccess_ends {st : StaticScheduler F} {d : Nat} {regionList : List (Region F)}
    (hq : ∀ q ∈ regionList, d < (st.size q.matrix).length → d < q.coords.length) {P : Prop}
    {dims : List Nat} (h : Decides d P dims) :
    Ends (filterAccess M st dims regionList) (OutOfRangeIf False)
      (Decides d (P ∧ ∀ q ∈ regionList, EndsAtSize M st d q)) := by
  refine Ends.foldlM (fun done dims => Decides d (P ∧ ∀ q ∈ done, EndsAtSize M st d q) dims)
    (h.of_iff (by simp)) ?_
  intro done q rest hl dims hdims
  refine (filterDimensions_ends (hq q ?_) hdims).mono (fun _ h => h) ?_
  · rw [hl]
    exact List.mem_append_right _ List.mem_cons_self
  intro dims' hdims'
  refine hdims'.of_iff ?_
  rw [List.forall_mem_append, List.forall_mem_singleton, and_assoc]

/-- The regions of a matrix that the useless dimensions are checked against. -/
def listedRegions (tx : Transform M fm) (st : StaticScheduler F) (m : Matrix) :
    List (Region F) :=
  tx.rules.flatMap
    (fun r => (getNonSelfDependentRegions st r).filter (fun q => q.matrix = m))

theorem filterNonSelfDependentAccesses_ends {st : StaticScheduler F} {d : Nat} {m : Matrix}
    (hq : ∀ q ∈ tx.listedRegions st m, d < (st.size q.matrix).length → d < q.coords.length)
    {P : Prop} {dims : List Nat} (h : Decides d P dims) :
    Ends (tx.filterNonSelfDependentAccesses st dims m) (OutOfRangeIf False)
      (Decides d (P ∧ ∀ q ∈ tx.listedRegions st m, EndsAtSize M st d q)) := by
  let listed := fun r => (getNonSelfDependentRegions st r).filter (fun q => q.matrix = m)
  refine Ends.foldlM (fun done dims => Decides d
    (P ∧ ∀ q ∈ done.flatMap listed, EndsAtSize M st d q) dims) (h.of_iff (by simp)) ?_
  intro done r rest hl dims hdims
  refine (filterAccess_ends ?_ hdims).mono (fun _ h => h) ?_
  · intro q hmem
    refine hq q (List.mem_flatMap.mpr ⟨r, ?_, hmem⟩)
    rw [hl]
    exact List.mem_append_right _ List.mem_cons_self
  intro dims' hdims'
  refine hdims'.of_iff ?_
  rw [List.flatMap_append, List.flatMap_singleton, List.forall_mem_append, and_assoc]

/-- **WHAT IS FOUND USELESS**: the last dimension, if all vectors lie one behind in it and the
    listed accesses end at its size. -/
theorem findUselessDimensions_ends [Inhabited S] {st : StaticScheduler F} {d : Nat} {m : Matrix}
    {set : List (CoordinateFormula F)} (hne : set ≠ []) (hlen : ∀ v ∈ set, v.length = d + 1)
    (hq : ∀ q ∈ tx.listedRegions st m, d < (st.size q.matrix).length → d < q.coords.length) :
    Ends (tx.findUselessDimensions st set m) (OutOfRangeIf False)
      (Decides d ((∀ v ∈ set, Behind M d v) ∧
        ∀ q ∈ tx.listedRegions st m, EndsAtSize M st d q)) := by
  cases set with
  | nil => exact absurd rfl hne
  | cons v rest =>
      have hv : v.length = d + 1 := hlen v List.mem_cons_self
      have hstatus : Ends ((List.range (d + 1)).mapM (dimensionStatus fm (v :: rest)))
          (OutOfRangeIf False) (List.Forall₂ (fun dim status =>
            (status = .ALWAYS_MINUS1 ↔ AlwaysAt M (v :: rest) dim (-1)) ∧
              (status = .ALWAYS_ZERO ↔ AlwaysAt M (v :: rest) dim 0)) (List.range (d + 1))) := by
        refine Ends.mapM ?_
        intro dim hdim
        refine (dimensionStatus_ends hne dim).mono (OutOfRangeIf.imp ?_) (fun _ h => h)
        rintro ⟨w, hw, hle⟩
        have := hlen w hw
        have := List.mem_range.mp hdim
        omega
      rw [findUselessDimensions]
      simp only [hv]
      refine Ends.bind hstatus ?_
      intro matrixStatus hmatrix
      rw [List.range_succ] at hmatrix
      obtain ⟨zeros, last, hzeros, hlast, rfl⟩ := exists_of_forall₂_concat hmatrix
      have hany : zeros.any (· ≠ .ALWAYS_ZERO) = false ↔
          ∀ i < d, AlwaysAt M (v :: rest) i 0 := by
        have hall := forall_mem_iff_of_forall₂ hzeros (fun _ _ h => h.2)
        simp only [List.mem_range] at hall
        rw [← hall]
        simp
      have hbehind := behind_iff (M := M) hlen
      simp only [List.getLast?_concat, List.dropLast_concat]
      by_cases hz : zeros.any (· ≠ .ALWAYS_ZERO) = true
      · rw [if_pos hz]
        refine Ends.ok ⟨?_, fun _ => rfl⟩
        rintro ⟨hall, _⟩
        rw [hany.mpr (hbehind.mp hall).1] at hz
        cases hz
      · rw [if_neg hz]
        have hzero := hany.mp (Bool.eq_false_iff.mpr hz)
        refine filterNonSelfDependentAccesses_ends hq ?_
        have hiff : (∀ w ∈ v :: rest, Behind M d w) ↔ last = .ALWAYS_MINUS1 := by
          rw [hbehind, hlast.1]
          exact and_iff_right hzero
        constructor
        · intro hall
          rw [if_pos (hiff.mp hall)]
          rfl
        · intro hall
          exact if_neg (fun h => hall (hiff.mpr h))

end Transform

end PbUselessDimension
