import PetaBricks.ApplicableRegionProofs
import PetaBricks.RationalFormProofs

/-! # Intersecting the bounds

    The larger of two lower bounds is taken if it is known to be, and the second one if not.  So
    an intersection admits the points of both regions if what is not known does not matter.  Each
    bound of the result is a bound of some region, so that regions which can be intersected with
    all of them can be intersected with the result. -/

namespace PbApplicableRegion

open PbDataDependency (SimpleRegion Cell)
open PbRounding

variable {F Z : Type} [DecidableEq F] {A : Formulas F Z} {M : Maxima A}

namespace Maxima

theorem holds_of_yes {a b : F} {op : Op} (h : M.tryCompare a op b = .YES) {s : Z × Cell}
    (hs : M.Assumed s) : op.Holds (A.eval a s) (A.eval b s) := by
  rw [tryCompare] at h
  by_cases hab : a = b
  · subst hab
    rw [if_pos rfl] at h
    cases op with
    | le => exact le_rfl
    | ge => exact le_rfl
    | lt => cases h
    | gt => cases h
  · rw [if_neg hab] at h
    exact M.yes a op b h s hs

end Maxima

theorem AtLeast.mono {u v : WithTop ℚ} {x : ℤ} (h : AtLeast v x) (huv : u ≤ v) :
    AtLeast u x := by
  obtain ⟨q, rfl, hq⟩ := h
  obtain ⟨p, rfl, hpq⟩ := WithTop.le_coe_iff.mp huv
  exact ⟨p, rfl, (truncate_mono hpq).trans hq⟩

theorem Below.mono {u v : WithTop ℚ} {x : ℤ} (h : Below u x) (huv : u ≤ v) : Below v x := by
  rintro q rfl
  obtain ⟨p, rfl, hpq⟩ := WithTop.le_coe_iff.mp huv
  exact lt_of_lt_of_le (h p rfl) (truncate_mono hpq)

/-! ## Two regions -/

/-- Taking the larger of two lower bounds gives the larger one. -/
def LowerSafe (M : Maxima A) (f g : F) : Prop :=
  M.tryCompare f .ge g = .YES ∨ ∀ s, M.Assumed s → A.eval f s ≤ A.eval g s

/-- Taking the smaller of two upper bounds gives the smaller one. -/
def UpperSafe (M : Maxima A) (f g : F) : Prop :=
  M.tryCompare f .le g = .YES ∨ ∀ s, M.Assumed s → A.eval g s ≤ A.eval f s

/-- In the first `n` dimensions, the bounds of two regions can be compared, or the second one is
    the tighter one anyway. -/
def MeetSafe (M : Maxima A) (n : Nat) (a b : SimpleRegion F) : Prop :=
  ∀ d < n, ∀ (p q : F × F), a.coords[d]? = some p → b.coords[d]? = some q →
    LowerSafe M p.1 q.1 ∧ UpperSafe M p.2 q.2

theorem atLeast_max {f g : F} (h : LowerSafe M f g) {s : Z × Cell} (hs : M.Assumed s) (x : ℤ) :
    AtLeast (A.eval (M.max f g) s) x ↔ AtLeast (A.eval f s) x ∧ AtLeast (A.eval g s) x := by
  rw [Maxima.max]
  by_cases hyes : M.tryCompare f .ge g = .YES
  · rw [if_pos hyes]
    exact ⟨fun hf => ⟨hf, hf.mono (Maxima.holds_of_yes hyes hs)⟩, And.left⟩
  · rw [if_neg hyes]
    exact ⟨fun hg => ⟨hg.mono (h.resolve_left hyes s hs), hg⟩, And.right⟩

theorem below_min {f g : F} (h : UpperSafe M f g) {s : Z × Cell} (hs : M.Assumed s) (x : ℤ) :
    Below (A.eval (M.min f g) s) x ↔ Below (A.eval f s) x ∧ Below (A.eval g s) x := by
  rw [Maxima.min]
  by_cases hyes : M.tryCompare f .le g = .YES
  · rw [if_pos hyes]
    exact ⟨fun hf => ⟨hf, hf.mono (Maxima.holds_of_yes hyes hs)⟩, And.left⟩
  · rw [if_neg hyes]
    exact ⟨fun hg => ⟨hg.mono (h.resolve_left hyes s hs), hg⟩, And.right⟩

/-- The bounds of an intersection, in one dimension. -/
theorem intersectLower_coords {a b : SimpleRegion F} (hle : b.dimensions ≤ a.dimensions)
    (d : Nat) : (intersectLower M a b).coords[d]? = (a.coords[d]?).map fun p =>
      (b.coords[d]?).elim p fun q => (M.max p.1 q.1, M.min p.2 q.2) := by
  have hlen : (List.zipWith (fun p q : F × F => (M.max p.1 q.1, M.min p.2 q.2)) a.coords
      b.coords).length = b.dimensions := by
    rw [List.length_zipWith]
    exact Nat.min_eq_right hle
  show (_ ++ _)[d]? = _
  by_cases hd : d < b.dimensions
  · rw [List.getElem?_append_left (by rw [hlen]; exact hd), List.getElem?_zipWith]
    have hb : b.coords[d]? = some b.coords[d] := List.getElem?_eq_getElem hd
    rw [hb]
    cases a.coords[d]? <;> rfl
  -- a dimension that only the first region has
  · have hb : b.coords[d]? = none := List.getElem?_eq_none (not_lt.mp hd)
    rw [List.getElem?_append_right (by rw [hlen]; exact not_lt.mp hd), hlen, List.getElem?_drop,
      Nat.add_sub_cancel' (not_lt.mp hd), hb]
    cases a.coords[d]? <;> rfl

theorem intersectLower_dimensions {a b : SimpleRegion F} (hle : b.dimensions ≤ a.dimensions) :
    (intersectLower M a b).dimensions = a.dimensions := by
  show (_ ++ _ : List (F × F)).length = a.dimensions
  rw [List.length_append, List.length_zipWith, List.length_drop]
  change b.coords.length ≤ a.coords.length at hle
  show Min.min a.coords.length b.coords.length + (a.coords.length - b.coords.length)
    = a.coords.length
  omega

variable {n : Nat}

/-- **A SAFE INTERSECTION** admits the points of both regions. -/
theorem intersectLower_admits {a b : SimpleRegion F} (hle : b.dimensions ≤ a.dimensions)
    (hsafe : MeetSafe M n a b) {s : Z × Cell} (hs : M.Assumed s) :
    Admits A n (intersectLower M a b) s ↔ Admits A n a s ∧ Admits A n b s := by
  constructor
  · intro h
    have hboth : ∀ d < n, ∀ p, a.coords[d]? = some p →
        (AtLeast (A.eval p.1 s) (s.2 d) ∧ Below (A.eval p.2 s) (s.2 d))
        ∧ ∀ q, b.coords[d]? = some q →
          AtLeast (A.eval q.1 s) (s.2 d) ∧ Below (A.eval q.2 s) (s.2 d) := by
      intro d hd p hp
      have hcoord := intersectLower_coords (M := M) hle d
      rw [hp] at hcoord
      cases hq : b.coords[d]? with
      | none =>
          rw [hq] at hcoord
          exact ⟨h d hd _ hcoord, fun q hq => by cases hq⟩
      | some q =>
          rw [hq] at hcoord
          obtain ⟨hlow, hup⟩ := h d hd _ hcoord
          obtain ⟨hl, hu⟩ := hsafe d hd p q hp hq
          obtain ⟨hlp, hlq⟩ := (atLeast_max hl hs _).mp hlow
          obtain ⟨hup, huq⟩ := (below_min hu hs _).mp hup
          refine ⟨⟨hlp, hup⟩, fun q' hq' => ?_⟩
          cases hq'
          exact ⟨hlq, huq⟩
    refine ⟨fun d hd p hp => (hboth d hd p hp).1, fun d hd q hq => ?_⟩
    have hlt : d < a.coords.length := by
      obtain ⟨hlt, -⟩ := List.getElem?_eq_some_iff.mp hq
      exact lt_of_lt_of_le hlt hle
    exact (hboth d hd _ (List.getElem?_eq_getElem hlt)).2 q hq
  · rintro ⟨ha, hb⟩ d hd c hc
    rw [intersectLower_coords hle] at hc
    obtain ⟨p, hp, rfl⟩ := Option.map_eq_some_iff.mp hc
    obtain ⟨hlp, hup⟩ := ha d hd p hp
    cases hq : b.coords[d]? with
    | none => exact ⟨hlp, hup⟩
    | some q =>
        obtain ⟨hl, hu⟩ := hsafe d hd p q hp hq
        obtain ⟨hlq, huq⟩ := hb d hd q hq
        exact ⟨(atLeast_max hl hs _).mpr ⟨hlp, hlq⟩, (below_min hu hs _).mpr ⟨hup, huq⟩⟩

/-- Each bound of an intersection is a bound of one of its parts, so that it has what all of
    theirs have. -/
theorem intersectLower_bounds {a b : SimpleRegion F} {P Q : F → Prop}
    (hle : b.dimensions ≤ a.dimensions) {d : Nat}
    (ha : ∀ p, a.coords[d]? = some p → P p.1 ∧ Q p.2)
    (hb : ∀ q, b.coords[d]? = some q → P q.1 ∧ Q q.2) {c : F × F}
    (hc : (intersectLower M a b).coords[d]? = some c) : P c.1 ∧ Q c.2 := by
  rw [intersectLower_coords hle] at hc
  obtain ⟨p, hp, rfl⟩ := Option.map_eq_some_iff.mp hc
  obtain ⟨hP, hQ⟩ := ha p hp
  cases hq : b.coords[d]? with
  | none => exact ⟨hP, hQ⟩
  | some q =>
      obtain ⟨hP', hQ'⟩ := hb q hq
      -- `max` and `min` return one of their operands, whatever the answer
      refine ⟨?_, ?_⟩
      · show P (if _ then _ else _)
        split_ifs
        · exact hP
        · exact hP'
      · show Q (if _ then _ else _)
        split_ifs
        · exact hQ
        · exact hQ'

theorem intersectLower_safe_left {a b t : SimpleRegion F} (hle : b.dimensions ≤ a.dimensions)
    (ha : MeetSafe M n a t) (hb : MeetSafe M n b t) : MeetSafe M n (intersectLower M a b) t := by
  intro d hd c r hc hr
  exact intersectLower_bounds (P := fun f => LowerSafe M f r.1) (Q := fun f => UpperSafe M f r.2)
    hle (fun p hp => ha d hd p r hp hr) (fun q hq => hb d hd q r hq hr) hc

theorem intersectLower_safe_right {a b t : SimpleRegion F} (hle : b.dimensions ≤ a.dimensions)
    (ha : MeetSafe M n t a) (hb : MeetSafe M n t b) : MeetSafe M n t (intersectLower M a b) := by
  intro d hd r c hr hc
  exact intersectLower_bounds (P := LowerSafe M r.1) (Q := UpperSafe M r.2)
    hle (fun p hp => ha d hd r p hr hp) (fun q hq => hb d hd r q hr hq) hc

/-! ## All regions -/

/-- A region stands for the intersection of a list of regions. -/
structure Represents (M : Maxima A) (n : Nat) (ar : SimpleRegion F)
    (ts : List (SimpleRegion F)) : Prop where
  below : ∀ t ∈ ts, t.dimensions ≤ ar.dimensions
  reached : ∃ t ∈ ts, ar.dimensions = t.dimensions
  left : ∀ t, (∀ p ∈ ts, MeetSafe M n p t) → MeetSafe M n ar t
  right : ∀ t, (∀ p ∈ ts, MeetSafe M n t p) → MeetSafe M n t ar
  admits : ∀ s, M.Assumed s → (Admits A n ar s ↔ ∀ t ∈ ts, Admits A n t s)

/-- What is known of the region so far, if there is one. -/
def Stored (M : Maxima A) (n : Nat) : Option (SimpleRegion F) → List (SimpleRegion F) → Prop
  | none, ts => ts = []
  | some ar, ts => Represents M n ar ts

theorem represents_single (t : SimpleRegion F) : Represents M n t [t] where
  below := fun p hp => le_of_eq (congrArg _ (List.mem_singleton.mp hp))
  reached := ⟨t, List.mem_singleton_self t, rfl⟩
  left := fun _ h => h t (List.mem_singleton_self t)
  right := fun _ h => h t (List.mem_singleton_self t)
  admits := fun s _ => by rw [List.forall_mem_singleton]

/-- The region so far has more dimensions than all of its regions had if it does. -/
theorem Represents.lt_iff {ar : SimpleRegion F} {ts : List (SimpleRegion F)}
    (h : Represents M n ar ts) (k : Nat) :
    (∀ p ∈ ts, p.dimensions < k) ↔ ar.dimensions < k := by
  constructor
  · intro hall
    obtain ⟨p, hp, he⟩ := h.reached
    rw [he]
    exact hall p hp
  · exact fun hlt p hp => lt_of_le_of_lt (h.below p hp) hlt

/-- **ONE MORE REGION**, safe with all so far. -/
theorem Represents.intersect {ar t : SimpleRegion F} {ts : List (SimpleRegion F)}
    (h : Represents M n ar ts) (hsafe : if ∀ p ∈ ts, p.dimensions < t.dimensions then
      ∀ p ∈ ts, MeetSafe M n t p else ∀ p ∈ ts, MeetSafe M n p t) :
    Represents M n (intersect M ar t) (ts ++ [t]) := by
  have hsplit : ∀ {P : SimpleRegion F → Prop}, (∀ p ∈ ts ++ [t], P p) ↔ (∀ p ∈ ts, P p) ∧ P t := by
    intro P
    rw [List.forall_mem_append, List.forall_mem_singleton]
  -- the new region goes first if it has more dimensions
  by_cases hlt : ar.dimensions < t.dimensions
  · rw [if_pos ((h.lt_iff _).mpr hlt)] at hsafe
    have hmeet : MeetSafe M n t ar := h.right t hsafe
    rw [PbApplicableRegion.intersect, if_pos hlt]
    have hdim := intersectLower_dimensions (M := M) hlt.le
    exact
      { below := hsplit.mpr ⟨fun p hp => (h.below p hp).trans (hlt.le.trans hdim.ge), hdim.ge⟩
        reached := ⟨t, List.mem_append_right _ (List.mem_singleton_self t), hdim⟩
        left := fun u hu => intersectLower_safe_left hlt.le (hsplit.mp hu).2
          (h.left u (hsplit.mp hu).1)
        right := fun u hu => intersectLower_safe_right hlt.le (hsplit.mp hu).2
          (h.right u (hsplit.mp hu).1)
        admits := fun s hs => by
          rw [intersectLower_admits hlt.le hmeet hs, h.admits s hs, hsplit, and_comm] }
  · rw [if_neg (fun hall => hlt ((h.lt_iff _).mp hall))] at hsafe
    have hmeet : MeetSafe M n ar t := h.left t hsafe
    have hle : t.dimensions ≤ ar.dimensions := not_lt.mp hlt
    rw [PbApplicableRegion.intersect, if_neg hlt]
    have hdim := intersectLower_dimensions (M := M) hle
    obtain ⟨p, hp, he⟩ := h.reached
    exact
      { below := hsplit.mpr ⟨fun p hp => (h.below p hp).trans hdim.ge, hle.trans hdim.ge⟩
        reached := ⟨p, List.mem_append_left _ hp, hdim.trans he⟩
        left := fun u hu => intersectLower_safe_left hle (h.left u (hsplit.mp hu).1)
          (hsplit.mp hu).2
        right := fun u hu => intersectLower_safe_right hle (h.right u (hsplit.mp hu).1)
          (hsplit.mp hu).2
        admits := fun s hs => by
          rw [intersectLower_admits hle hmeet hs, h.admits s hs, hsplit] }

/-! ## The loops -/

/-- The bounds of some regions, in order. -/
def boundsOf (M : Maxima A) (l : List (Region F × Bool)) : List (SimpleRegion F) :=
  l.filterMap fun a => getApplicableRegion M a.1 a.2

theorem mem_boundsOf {l : List (Region F × Bool)} {t : SimpleRegion F} :
    t ∈ boundsOf M l ↔ ∃ a ∈ l, getApplicableRegion M a.1 a.2 = some t :=
  List.mem_filterMap

theorem boundsOf_concat {l : List (Region F × Bool)} {a : Region F × Bool} {t : SimpleRegion F}
    (ht : getApplicableRegion M a.1 a.2 = some t) :
    boundsOf M (l ++ [a]) = boundsOf M l ++ [t] := by
  rw [boundsOf, List.filterMap_append]
  exact congrArg (_ ++ ·) (List.filterMap_cons_some ht)

/-- Each region is safe with those before it; it goes first if it has more dimensions than all of
    them. -/
def OrderSafe (M : Maxima A) (n : Nat) (all : List (Region F × Bool)) : Prop :=
  ∀ l a l', all = l ++ a :: l' → ∀ b ∈ l, ∀ t p, getApplicableRegion M a.1 a.2 = some t →
    getApplicableRegion M b.1 b.2 = some p →
      if ∀ b' ∈ l, b'.1.dimensions < a.1.dimensions then MeetSafe M n t p else MeetSafe M n p t

/-- **A RUN OF THE LOOPS** stores the intersection of the bounds. -/
theorem stored_of_foldlM {all : List (Region F × Bool)}
    (hexists : ∀ a ∈ all, ∃ t, getApplicableRegion M a.1 a.2 = some t
      ∧ t.dimensions = a.1.dimensions) (horder : OrderSafe M n all)
    {l rest : List (Region F × Bool)} {ar : Option (SimpleRegion F)} (hall : all = l ++ rest)
    (har : Stored M n ar (boundsOf M l)) :
    ∃ ar', rest.foldlM (fun ar a => meet M a.2 ar a.1) ar = some ar'
      ∧ Stored M n ar' (boundsOf M all) := by
  induction rest generalizing l ar with
  | nil =>
      rw [List.append_nil] at hall
      exact ⟨ar, rfl, hall ▸ har⟩
  | cons a rest ih =>
      have hbefore : ∀ b ∈ l, b ∈ all := fun b hb => by
        rw [hall]
        exact List.mem_append_left _ hb
      have ha : a ∈ all := by
        rw [hall]
        exact List.mem_append_right l List.mem_cons_self
      obtain ⟨t, ht, hdim⟩ := hexists a ha
      have hnext : all = (l ++ [a]) ++ rest := by rw [hall, List.append_assoc]; rfl
      obtain ⟨ar', hmeet, har'⟩ : ∃ ar', meet M a.2 ar a.1 = some ar'
          ∧ Stored M n ar' (boundsOf M (l ++ [a])) := by
        rw [meet, ht, boundsOf_concat ht]
        -- the first region is stored as it is
        cases ar with
        | none =>
            have hnil : boundsOf M l = [] := har
            rw [hnil]
            exact ⟨some t, rfl, represents_single t⟩
        | some ar =>
            refine ⟨some (intersect M ar t), rfl, Represents.intersect har ?_⟩
            -- the regions so far and their bounds have the same dimensions
            have hiff : (∀ p ∈ boundsOf M l, p.dimensions < t.dimensions)
                ↔ ∀ b ∈ l, b.1.dimensions < a.1.dimensions := by
              rw [hdim]
              constructor
              · intro h b hb
                obtain ⟨p, hp, hpdim⟩ := hexists b (hbefore b hb)
                rw [← hpdim]
                exact h p (mem_boundsOf.mpr ⟨b, hb, hp⟩)
              · intro h p hp
                obtain ⟨b, hb, hbp⟩ := mem_boundsOf.mp hp
                obtain ⟨p', hp', hpdim⟩ := hexists b (hbefore b hb)
                cases hbp.symm.trans hp'
                rw [hpdim]
                exact h b hb
            by_cases hmore : ∀ b ∈ l, b.1.dimensions < a.1.dimensions
            · rw [if_pos (hiff.mpr hmore)]
              intro p hp
              obtain ⟨b, hb, hbp⟩ := mem_boundsOf.mp hp
              have hsafe := horder l a rest hall b hb t p ht hbp
              rwa [if_pos hmore] at hsafe
            · rw [if_neg (fun h => hmore (hiff.mp h))]
              intro p hp
              obtain ⟨b, hb, hbp⟩ := mem_boundsOf.mp hp
              have hsafe := horder l a rest hall b hb t p ht hbp
              rwa [if_neg hmore] at hsafe
      obtain ⟨ar'', hrest, har''⟩ := ih hnext har'
      refine ⟨ar'', ?_, har''⟩
      rw [List.foldlM_cons, hmeet]
      exact hrest

theorem foldlM_toRegions {toRegions : List (Region F)}
    (hto : ∀ r ∈ toRegions, r.isOptional = false) (ar : Option (SimpleRegion F)) :
    toRegions.foldlM (fun ar r => if r.isOptional then none else meet M true ar r) ar
      = (toRegions.map fun r => (r, true)).foldlM (fun ar a => meet M a.2 ar a.1) ar := by
  induction toRegions generalizing ar with
  | nil => rfl
  | cons r rest ih =>
      rw [List.map_cons, List.foldlM_cons, List.foldlM_cons, hto r List.mem_cons_self]
      exact congrArg _ (funext fun ar => ih (fun r hr => hto r (List.mem_cons_of_mem _ hr)) ar)

theorem foldlM_fromRegions (fromRegions : List (Region F)) (ar : Option (SimpleRegion F)) :
    fromRegions.foldlM (fun ar r =>
        if true && r.isOptional then some ar else meet M false ar r) ar
      = ((fromRegions.filter fun r => !r.isOptional).map fun r => (r, false)).foldlM
        (fun ar a => meet M a.2 ar a.1) ar := by
  induction fromRegions generalizing ar with
  | nil => rfl
  | cons r rest ih =>
      cases hr : r.isOptional with
      | true =>
          rw [List.foldlM_cons, List.filter_cons_of_neg (by rw [hr]; decide), ← ih, hr]
          rfl
      | false =>
          rw [List.foldlM_cons, List.filter_cons_of_pos (by rw [hr]; rfl), List.map_cons,
            List.foldlM_cons, hr]
          exact congrArg _ (funext ih)

/-- The loops go over the mandatory regions. -/
theorem buildApplicableRegion_eq {toRegions fromRegions : List (Region F)}
    (hto : ∀ r ∈ toRegions, r.isOptional = false) :
    buildApplicableRegion M true toRegions fromRegions
      = ((mandatory toRegions fromRegions).foldlM (fun ar a => meet M a.2 ar a.1) none).bind id := by
  rw [mandatory, List.foldlM_append, ← foldlM_toRegions hto]
  simp only [buildApplicableRegion, foldlM_fromRegions]
  exact (Option.bind_assoc _ _ _).symm

/-! ## The result -/

/-- The region whose corner is the iteration point itself. -/
def IsCenter (n : Nat) (r : Region F) (shape : Nat → Shape Z) : Prop :=
  n ≤ r.dimensions ∧ ∀ v < n, (shape v).axis = some v ∧ (shape v).minSlope = 1
    ∧ ∀ z, (shape v).lo z = 0

omit [DecidableEq F] in
theorem first_of_center {h : Shape Z} {z : Z} (hs : h.Signs) (hslope : h.minSlope = 1)
    (hlo : h.lo z = 0) : h.first z = 0 := by
  have hmax : ¬ h.maxSlope < 0 := by
    rcases hs with ⟨-, h⟩ | ⟨h, h'⟩ <;> omega
  rw [Shape.first, if_neg hmax, hlo, Int.cast_zero, sub_zero, zero_div]

/-- When the applicable region of a rule of `n` dimensions is exact. -/
structure ExactWhen (M : Maxima A) (n : Nat) (toRegions fromRegions : List (Region F)) : Prop where
  regular : ∀ a ∈ mandatory toRegions fromRegions, ∃ shape, Regular M n a.1 a.2 shape
  center : ∃ r ∈ toRegions, ∃ shape, Regular M n r true shape ∧ IsCenter n r shape
  order : OrderSafe M n (mandatory toRegions fromRegions)

omit [DecidableEq F] in
/-- A region of one dimension. -/
theorem regular_single {c : Coordinate F} {h : Shape Z} (hf : Fits A c h) (haxis : h.axis = some 0)
    (hsigns : h.Signs) (isOutput isOptional : Bool)
    (hdivides : isOutput = true → ∀ z, |h.maxSlope| ∣ h.reach z + 1) :
    Regular M 1 ⟨[c], isOptional⟩ isOutput fun _ => h where
  fits := fun d c' hc' => by
    cases d with
    | zero =>
        cases hc'
        exact hf
    | succ d => cases hc'
  own := fun d _ v hv => by
    cases haxis.symm.trans hv
    exact ⟨Nat.zero_lt_one, Nat.zero_lt_one⟩
  once := fun d hd d' hd' _ _ _ => by
    have h : d < 1 := hd
    have h' : d' < 1 := hd'
    omega
  signs := fun _ _ _ => hsigns
  step := fun d _ v _ => if_neg (by rw [haxis]; exact Option.some_ne_none 0)
  divides := fun ho _ _ _ s _ => hdivides ho s.1
  constants := fun _ _ hnone => by cases haxis.symm.trans hnone
  unused := fun d hd _ _ => .inl ⟨0, Nat.zero_lt_one, by rw [haxis, Nat.lt_one_iff.mp hd]⟩

theorem meetSafe_self (M : Maxima A) (n : Nat) (t : SimpleRegion F) : MeetSafe M n t t := by
  intro d _ p q hp hq
  cases hp.symm.trans hq
  exact ⟨.inr fun _ _ => le_rfl, .inr fun _ _ => le_rfl⟩

/-! ## Rules of one dimension -/

/-- `C.cell(x)`, of a matrix of size `n`. -/
def written : Region Form := ⟨[⟨.lin 1 0 0 0, .lin 1 0 0 1, .lin 0 1 0 0⟩], false⟩

/-- `A.cell(x)`, of a matrix of size `m`. -/
def source : Region Form := ⟨[⟨.lin 1 0 0 0, .lin 1 0 0 1, .lin 0 0 1 0⟩], false⟩

/-- `B.cell(n - 1 - x)`, of a matrix of size `n`. -/
def mirrored : Region Form := ⟨[⟨.lin (-1) 1 0 (-1), .lin (-1) 1 0 0, .lin 0 1 0 0⟩], false⟩

/-- `D.cell(2 * x)`, of a matrix of size `2 * n`. -/
def doubled : Region Form := ⟨[⟨.lin 2 0 0 0, .lin 2 0 0 1, .lin 0 2 0 0⟩], false⟩

theorem eval_lin {x n m k : ℚ} {s : (ℤ × ℤ) × Cell} {t : ℤ}
    (h : x * s.2 0 + n * s.1.1 + m * s.1.2 + k = t) :
    Form.formulas.eval (.lin x n m k) s = ((t : ℚ) : WithTop ℚ) :=
  WithTop.coe_inj.mpr h

/-- `E.cell(2 * x)`, of a matrix of size `n`. -/
def sparse : Region Form := ⟨[⟨.lin 2 0 0 0, .lin 2 0 0 1, .lin 0 1 0 0⟩], false⟩

def writtenShape : Shape (ℤ × ℤ) := ⟨some 0, 1, 1, fun _ => 0, fun _ => 1, fun z => z.1⟩

def mirroredShape : Shape (ℤ × ℤ) := ⟨some 0, -1, -1, fun z => z.1 - 1, fun z => z.1, fun z => z.1⟩

def doubledShape : Shape (ℤ × ℤ) := ⟨some 0, 2, 2, fun _ => 0, fun _ => 1, fun z => 2 * z.1⟩

theorem fits_written :
    Fits Form.formulas ⟨.lin 1 0 0 0, .lin 1 0 0 1, .lin 0 1 0 0⟩ writtenShape where
  minAxis := by unfold Axis; decide +kernel
  maxAxis := by unfold Axis; decide +kernel
  sizeAxis := by unfold Axis; decide +kernel
  constant := fun h => by cases h
  low := fun s => eval_lin (by simp [writtenShape, Shape.low, line])
  high := fun s => eval_lin (by simp [writtenShape, Shape.high, line])
  size := fun s => eval_lin (by simp [writtenShape])

theorem fits_mirrored :
    Fits Form.formulas ⟨.lin (-1) 1 0 (-1), .lin (-1) 1 0 0, .lin 0 1 0 0⟩ mirroredShape where
  minAxis := by unfold Axis; decide +kernel
  maxAxis := by unfold Axis; decide +kernel
  sizeAxis := by unfold Axis; decide +kernel
  constant := fun h => by cases h
  low := fun s => eval_lin (by simp [mirroredShape, Shape.low, line]; ring)
  high := fun s => eval_lin (by simp [mirroredShape, Shape.high, line])
  size := fun s => eval_lin (by simp [mirroredShape])

theorem fits_doubled :
    Fits Form.formulas ⟨.lin 2 0 0 0, .lin 2 0 0 1, .lin 0 2 0 0⟩ doubledShape where
  minAxis := by unfold Axis; decide +kernel
  maxAxis := by unfold Axis; decide +kernel
  sizeAxis := by unfold Axis; decide +kernel
  constant := fun h => by cases h
  low := fun s => eval_lin (by simp [doubledShape, Shape.low, line])
  high := fun s => eval_lin (by simp [doubledShape, Shape.high, line])
  size := fun s => eval_lin (by simp [doubledShape])

/-- All three have the bounds 0 and `n`. -/
theorem same_bounds : ∀ a ∈ mandatory [written] [mirrored, doubled],
    getApplicableRegion Form.maxima a.1 a.2 = some ⟨[(.lin 0 0 0 0, .lin 0 1 0 0)]⟩ := by
  decide +kernel

theorem regular_written (isOutput : Bool) :
    Regular Form.maxima 1 written isOutput fun _ => writtenShape :=
  regular_single fits_written rfl (.inl ⟨Int.one_pos, Int.one_pos⟩) isOutput false
    fun _ _ => one_dvd _

/-- The rule meets the condition. -/
theorem exactWhen_mirrored : ExactWhen Form.maxima 1 [written] [mirrored, doubled] where
  regular := by
    intro a ha
    rcases List.mem_cons.mp ha with rfl | ha
    · exact ⟨_, regular_written true⟩
    · rcases List.mem_pair.mp ha with rfl | rfl
      · exact ⟨_, regular_single fits_mirrored rfl (.inr ⟨rfl, by decide⟩) false false
          Bool.noConfusion⟩
      · exact ⟨_, regular_single fits_doubled rfl (.inl ⟨by decide, by decide⟩) false false
          Bool.noConfusion⟩
  center := by
    refine ⟨written, List.mem_singleton_self _, _, regular_written true, Nat.le_refl 1, ?_⟩
    intro v hv
    cases Nat.lt_one_iff.mp hv
    exact ⟨rfl, rfl, fun _ => rfl⟩
  order := by
    intro l a l' hall b hb t p ht hp
    have hat : getApplicableRegion Form.maxima a.1 a.2 = _ := same_bounds a (by
      rw [hall]
      exact List.mem_append_right l List.mem_cons_self)
    have hbp : getApplicableRegion Form.maxima b.1 b.2 = _ := same_bounds b (by
      rw [hall]
      exact List.mem_append_left _ hb)
    cases ht.symm.trans hat
    cases hp.symm.trans hbp
    split_ifs
    · exact meetSafe_self _ _ _
    · exact meetSafe_self _ _ _

end PbApplicableRegion
