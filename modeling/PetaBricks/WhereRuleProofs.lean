import PetaBricks.WhereRuleModel
import Mathlib.Data.List.Infix

/-! # Where clauses — which rule is selected

    A sorted set is copied by appending (`insert_last`), so `applyRulePriorities` keeps an initial
    part of it, the rules that are needed, and the expansion's rules are those with where clauses
    and then the fallback.  The chain of ifs takes the first of them that holds (`run_switch`).

    All of that needs iterators that survive the erasing of their element. -/

namespace PbWhereRule

variable {γ : Type}

/-- The priority order: where clauses come first among equal priorities, and then the ids. -/
def Before (r q : Rule γ) : Prop :=
  r.priority < q.priority ∨ r.priority = q.priority ∧
    (r.hasWhereClause = true ∧ q.hasWhereClause = false ∨
      r.hasWhereClause = q.hasWhereClause ∧ r.id < q.id)

/-- All conditions hold at a cell; a rule without where clause always does. -/
def holds (cell : γ) (r : Rule γ) : Bool := r.conditions.all fun c => c cell

/-- No rule with a smaller priority lacks a where clause. -/
def Needed (rs : List (Rule γ)) (r : Rule γ) : Prop :=
  ∀ q ∈ rs, q.priority < r.priority → q.hasWhereClause = true

/-- The outcome that the rules `kept` ask for at a cell. -/
def Picks (cell : γ) (kept : List (Rule γ)) : Outcome γ → Prop
  | .applied r => r ∈ kept ∧ holds cell r = true ∧
      ∀ q ∈ kept, holds cell q = true → q = r ∨ Before r q
  | .failed => ∀ q ∈ kept, holds cell q = false

/-- **SELECTED AS DOCUMENTED**: the needed rules are kept, and where some have where clauses the
    expansion takes the first that holds at each cell, and one whenever there is an unconditional
    rule. -/
def Selected (survives : Bool) (nextId : ℕ) (rs : List (Rule γ)) : Prop :=
  ∃ set kept, insertAll [] rs = some set ∧ applyRulePriorities set = some kept ∧
    (∀ r, r ∈ kept ↔ r ∈ rs ∧ Needed rs r) ∧
    ((∃ r ∈ kept, r.hasWhereClause = true) → hasWhereClauses kept = true) ∧
    (hasWhereClauses kept = true →
      ∃ e, expandWhereClauses survives nextId kept = some e ∧ ∀ cell,
        ∃ o, run cell (genWhereSwitch true e.whereRules) = some o ∧ Picks cell kept o ∧
          ((∃ q ∈ rs, q.hasWhereClause = false) → o ≠ .failed))

/-! ## The order -/

/-- The double of the priority is an `int`. -/
def InRange (r : Rule γ) : Prop :=
  -2 ^ 31 ≤ r.priority * 2 - (if r.hasWhereClause then 1 else 0) ∧ r.priority * 2 < 2 ^ 31

/-- Only a rule that is alone may be out of range, for it is compared with none. -/
def Comparable (rs : List (Rule γ)) : Prop := ∀ x ∈ rs, ∀ y ∈ rs, x ≠ y → InRange x

theorem Comparable.subset {rs qs : List (Rule γ)} (h : Comparable rs) (hsub : qs ⊆ rs) :
    Comparable qs := fun x hx y hy => h x (hsub hx) y (hsub hy)

theorem Before.irrefl {r : Rule γ} (h : Before r r) : False := by
  rcases h with h | ⟨_, ⟨h, h'⟩ | ⟨_, h⟩⟩
  · exact lt_irrefl _ h
  · rw [h] at h'
    cases h'
  · exact lt_irrefl _ h

theorem Before.trans {r q p : Rule γ} (h : Before r q) (h' : Before q p) : Before r p := by
  rcases h with h | ⟨heq, h⟩ <;> rcases h' with h' | ⟨heq', h'⟩
  · exact Or.inl (h.trans h')
  · exact Or.inl (heq' ▸ h)
  · exact Or.inl (heq ▸ h')
  · refine Or.inr ⟨heq.trans heq', ?_⟩
    rcases h with ⟨hr, hq⟩ | ⟨hw, hid⟩ <;> rcases h' with ⟨hq', hp⟩ | ⟨hw', hid'⟩
    · rw [hq] at hq'
      cases hq'
    · exact Or.inl ⟨hr, hw' ▸ hq⟩
    · exact Or.inl ⟨hw.trans hq', hp⟩
    · exact Or.inr ⟨hw.trans hw', hid.trans hid'⟩

theorem before_total {r q : Rule γ} (h : r.id ≠ q.id) : Before r q ∨ Before q r := by
  rcases lt_trichotomy r.priority q.priority with hlt | heq | hlt
  · exact Or.inl (Or.inl hlt)
  · cases hr : r.hasWhereClause <;> cases hq : q.hasWhereClause
    · rcases Nat.lt_or_gt_of_ne h with hid | hid
      · exact Or.inl (Or.inr ⟨heq, Or.inr ⟨hr.trans hq.symm, hid⟩⟩)
      · exact Or.inr (Or.inr ⟨heq.symm, Or.inr ⟨hq.trans hr.symm, hid⟩⟩)
    · exact Or.inr (Or.inr ⟨heq.symm, Or.inl ⟨hq, hr⟩⟩)
    · exact Or.inl (Or.inr ⟨heq, Or.inl ⟨hr, hq⟩⟩)
    · rcases Nat.lt_or_gt_of_ne h with hid | hid
      · exact Or.inl (Or.inr ⟨heq, Or.inr ⟨hr.trans hq.symm, hid⟩⟩)
      · exact Or.inr (Or.inr ⟨heq.symm, Or.inr ⟨hq.trans hr.symm, hid⟩⟩)
  · exact Or.inr (Or.inl hlt)

theorem priority_le {r q : Rule γ} (h : Before r q) : r.priority ≤ q.priority := by
  rcases h with h | ⟨h, _⟩
  · exact h.le
  · exact h.le

theorem doubled_of_inRange {r : Rule γ} (h : InRange r) :
    doubled r = some (r.priority * 2 - if r.hasWhereClause then 1 else 0) := if_pos h

theorem inRange_new (nextId : ℕ) : @InRange γ ⟨nextId, 1, []⟩ :=
  ⟨(by decide : -2 ^ 31 ≤ (1 : ℤ) * 2 - 0), (by decide : (1 : ℤ) * 2 < 2 ^ 31)⟩

theorem inRange_of_doubled {r : Rule γ} {k : ℤ} (h : doubled r = some k) : InRange r := by
  by_contra hnot
  rw [show doubled r = none from if_neg hnot] at h
  cases h

/-- `RulePriCmp` is the priority order. -/
theorem priCmp_iff {r q : Rule γ} (hr : InRange r) (hq : InRange q) :
    ∃ b, priCmp r q = some b ∧ (b = true ↔ Before r q) := by
  rw [priCmp, doubled_of_inRange hr, doubled_of_inRange hq]
  refine ⟨_, rfl, ?_⟩
  rw [Before]
  cases r.hasWhereClause <;> cases q.hasWhereClause <;>
    simp only [Bool.false_eq_true, if_true, if_false, true_and, false_and, and_true, and_false,
      or_false, false_or, Bool.true_eq_false] <;>
    split <;> simp only [decide_eq_true_eq] <;> omega

theorem priCmp_true {r q : Rule γ} (hr : InRange r) (hq : InRange q) (h : Before r q) :
    priCmp r q = some true := by
  obtain ⟨b, hcmp, hb⟩ := priCmp_iff hr hq
  rw [hcmp, hb.mpr h]

theorem priCmp_false {r q : Rule γ} (hr : InRange r) (hq : InRange q) (h : Before q r) :
    priCmp r q = some false := by
  obtain ⟨b, hcmp, hb⟩ := priCmp_iff hr hq
  rw [hcmp, Bool.eq_false_iff.mpr fun htrue => (h.trans (hb.mp htrue)).irrefl]

/-! ## The set -/

theorem insert_inRange {r x : Rule γ} {xs ys : List (Rule γ)} (h : insert r (x :: xs) = some ys) :
    InRange r ∧ InRange x := by
  rw [insert] at h
  obtain ⟨b, hcmp, _⟩ := Option.bind_eq_some_iff.mp h
  obtain ⟨k, hk, hrest⟩ := Option.bind_eq_some_iff.mp hcmp
  obtain ⟨k', hk', _⟩ := Option.bind_eq_some_iff.mp hrest
  exact ⟨inRange_of_doubled hk, inRange_of_doubled hk'⟩

theorem insert_before {r x : Rule γ} {xs : List (Rule γ)} (hr : InRange r) (hx : InRange x)
    (h : Before r x) : insert r (x :: xs) = some (r :: x :: xs) := by
  rw [insert, priCmp_true hr hx h]
  rfl

theorem insert_after {r x : Rule γ} {xs ys : List (Rule γ)} (hr : InRange r) (hx : InRange x)
    (h : Before x r) (hrest : insert r xs = some ys) : insert r (x :: xs) = some (x :: ys) := by
  rw [insert, priCmp_false hr hx h, priCmp_true hx hr h, hrest]
  rfl

/-- Another rule finds its place. -/
theorem insert_sorted {r : Rule γ} {xs : List (Rule γ)}
    (hrange : ∀ x ∈ xs, InRange x ∧ InRange r) (hid : ∀ x ∈ xs, r.id ≠ x.id)
    (hsorted : xs.Pairwise Before) :
    ∃ ys, insert r xs = some ys ∧ ys.Pairwise Before ∧ ys.Perm (r :: xs) := by
  induction xs with
  | nil => exact ⟨[r], rfl, List.pairwise_singleton _ r, List.Perm.refl _⟩
  | cons x xs ih =>
      obtain ⟨hx, hr⟩ := hrange x List.mem_cons_self
      obtain ⟨hfirst, hrest⟩ := List.pairwise_cons.mp hsorted
      rcases before_total (hid x List.mem_cons_self) with h | h
      · refine ⟨r :: x :: xs, insert_before hr hx h, ?_, List.Perm.refl _⟩
        refine List.pairwise_cons.mpr ⟨fun q hq => ?_, hsorted⟩
        rcases List.mem_cons.mp hq with rfl | hq
        · exact h
        · exact h.trans (hfirst q hq)
      · obtain ⟨ys, hys, hsorted', hperm⟩ := ih (fun q hq => hrange q (List.mem_cons_of_mem x hq))
          (fun q hq => hid q (List.mem_cons_of_mem x hq)) hrest
        refine ⟨x :: ys, insert_after hr hx h hys, ?_, ?_⟩
        · refine List.pairwise_cons.mpr ⟨fun q hq => ?_, hsorted'⟩
          rcases List.mem_cons.mp (hperm.mem_iff.mp hq) with rfl | hq
          · exact h
          · exact hfirst q hq
        · exact (hperm.cons x).trans (List.Perm.swap r x xs)

/-- A rule after all others goes to the end. -/
theorem insert_last {r : Rule γ} {xs : List (Rule γ)} (hrange : ∀ x ∈ xs, InRange x ∧ InRange r)
    (hbefore : ∀ x ∈ xs, Before x r) : insert r xs = some (xs ++ [r]) := by
  induction xs with
  | nil => rfl
  | cons x xs ih =>
      obtain ⟨hx, hr⟩ := hrange x List.mem_cons_self
      exact insert_after hr hx (hbefore x List.mem_cons_self)
        (ih (fun q hq => hrange q (List.mem_cons_of_mem x hq))
          fun q hq => hbefore q (List.mem_cons_of_mem x hq))

theorem insert_some {r : Rule γ} {xs : List (Rule γ)} (hrange : ∀ x ∈ xs, InRange x ∧ InRange r) :
    ∃ ys, insert r xs = some ys := by
  induction xs with
  | nil => exact ⟨[r], rfl⟩
  | cons x xs ih =>
      obtain ⟨hx, hr⟩ := hrange x List.mem_cons_self
      obtain ⟨ys, hys⟩ := ih fun q hq => hrange q (List.mem_cons_of_mem x hq)
      obtain ⟨b, hb, _⟩ := priCmp_iff hr hx
      obtain ⟨b', hb', _⟩ := priCmp_iff hx hr
      rw [insert, hb, Option.bind_eq_bind, Option.bind_some]
      cases b with
      | true => exact ⟨_, rfl⟩
      | false =>
          rw [hb', hys]
          cases b' <;> exact ⟨_, rfl⟩

/-- The set of rules that may be compared. -/
theorem insertAll_sorted {xs rs : List (Rule γ)} (hcomp : Comparable (xs ++ rs))
    (hid : ((xs ++ rs).map Rule.id).Nodup) (hsorted : xs.Pairwise Before) :
    ∃ set, insertAll xs rs = some set ∧ set.Pairwise Before ∧ set.Perm (xs ++ rs) := by
  induction rs generalizing xs with
  | nil => exact ⟨xs, rfl, hsorted, by rw [List.append_nil]⟩
  | cons r rest ih =>
      have hne : ∀ x ∈ xs, r.id ≠ x.id := by
        intro x hx heq
        rw [List.map_append, List.nodup_append] at hid
        exact hid.2.2 x.id (List.mem_map_of_mem hx) r.id (List.mem_cons_self) heq.symm
      have hmem : r ∈ xs ++ r :: rest := List.mem_append_right _ List.mem_cons_self
      have hrange : ∀ x ∈ xs, InRange x ∧ InRange r := fun x hx =>
        have hx' := List.mem_append_left (r :: rest) hx
        have hne' : x ≠ r := fun h => hne x hx (congrArg Rule.id h.symm)
        ⟨hcomp x hx' r hmem hne', hcomp r hmem x hx' hne'.symm⟩
      obtain ⟨ys, hys, hsorted', hperm⟩ := insert_sorted hrange hne hsorted
      have hperm' : (ys ++ rest).Perm (xs ++ r :: rest) :=
        (hperm.append_right rest).trans List.perm_middle.symm
      obtain ⟨set, hset, hsort, hp⟩ := ih (hcomp.subset hperm'.subset)
        ((hperm'.map Rule.id).nodup_iff.mpr hid) hsorted'
      refine ⟨set, ?_, hsort, hp.trans hperm'⟩
      rw [insertAll, hys]
      exact hset

theorem insert_ne_nil {r : Rule γ} {xs ys : List (Rule γ)} (h : insert r xs = some ys) :
    ys ≠ [] := by
  rintro rfl
  cases xs with
  | nil => cases h
  | cons x xs =>
      obtain ⟨hr, hx⟩ := insert_inRange h
      obtain ⟨b, hb, _⟩ := priCmp_iff hr hx
      obtain ⟨b', hb', _⟩ := priCmp_iff hx hr
      rw [insert, hb, Option.bind_eq_bind, Option.bind_some, hb'] at h
      cases b with
      | true => cases h
      | false =>
          cases b' with
          | true =>
              obtain ⟨_, _, hcons⟩ := Option.bind_eq_some_iff.mp h
              cases hcons
          | false => cases h

theorem insertAll_inRange {xs rs set : List (Rule γ)} (hne : xs ≠ [])
    (h : insertAll xs rs = some set) : ∀ r ∈ rs, InRange r := by
  induction rs generalizing xs with
  | nil => exact fun r hr => absurd hr List.not_mem_nil
  | cons r rest ih =>
      obtain ⟨ys, hys, hrest⟩ := Option.bind_eq_some_iff.mp h
      intro q hq
      rcases List.mem_cons.mp hq with rfl | hq
      · cases xs with
        | nil => exact absurd rfl hne
        | cons x xs => exact (insert_inRange hys).1
      · exact ih (insert_ne_nil hys) hrest q hq

theorem comparable_of_insertAll {rs set : List (Rule γ)} (h : insertAll [] rs = some set) :
    Comparable rs := by
  cases rs with
  | nil => exact fun x hx => absurd hx List.not_mem_nil
  | cons r rest =>
      cases rest with
      | nil =>
          intro x hx y hy hne
          rw [List.mem_singleton.mp hx, List.mem_singleton.mp hy] at hne
          exact absurd rfl hne
      | cons q rest =>
          -- the second rule is compared with the first, and each later one with some rule
          have h' : insertAll [r] (q :: rest) = some set := h
          obtain ⟨ys, hys, _⟩ := Option.bind_eq_some_iff.mp h'
          have hrest := insertAll_inRange (List.cons_ne_nil r []) h'
          intro x hx _ _ _
          rcases List.mem_cons.mp hx with rfl | hx
          · exact (insert_inRange hys).2
          · exact hrest x hx

/-! ## The rules that are kept -/

theorem Comparable.pair {rs : List (Rule γ)} (h : Comparable rs) {x y : Rule γ} (hx : x ∈ rs)
    (hy : y ∈ rs) (hne : x ≠ y) : InRange x ∧ InRange y := ⟨h x hx y hy hne, h y hy x hx hne.symm⟩

theorem Before.ne {r q : Rule γ} (h : Before r q) : r ≠ q := by
  rintro rfl
  exact h.irrefl

/-- A rule in front of one with a where clause has one or a smaller priority. -/
theorem hasWhereClause_of_before {q l : Rule γ} (h : Before q l) (hw : l.hasWhereClause = true)
    (hle : ¬ q.priority < l.priority) : q.hasWhereClause = true := by
  rcases h with h | ⟨_, ⟨h, _⟩ | ⟨h, _⟩⟩
  · exact absurd h hle
  · exact h
  · exact h.trans hw

/-- The rule after the needed ones that were seen, if the loop goes on. -/
theorem needed_next {seen rest : List (Rule γ)} {r : Rule γ}
    (hsorted : (seen ++ r :: rest).Pairwise Before)
    (hneeded : ∀ x ∈ seen, Needed (seen ++ r :: rest) x)
    (hgo : ∀ l, seen.getLast? = some l → l.priority < r.priority → l.hasWhereClause = true) :
    Needed (seen ++ r :: rest) r := by
  intro q hq hlt
  obtain ⟨hsorted', hafter, _⟩ := List.pairwise_append.mp hsorted
  -- a rule of smaller priority has been seen
  have hseen : q ∈ seen := by
    rcases List.mem_append.mp hq with hq | hq
    · exact hq
    · rcases List.mem_cons.mp hq with rfl | hq
      · exact absurd hlt (lt_irrefl _)
      · exact absurd (priority_le ((List.pairwise_cons.mp hafter).1 q hq)) (not_le.mpr hlt)
  rcases List.eq_nil_or_concat' seen with rfl | ⟨front, l, rfl⟩
  · cases hseen
  · have hl : l ∈ (front ++ [l]) ++ r :: rest := List.mem_append_left _ (List.mem_append_right _
      List.mem_cons_self)
    by_cases hql : q.priority < l.priority
    · exact hneeded l (List.mem_append_right _ List.mem_cons_self) q
        (List.mem_append_left _ hseen) hql
    · rcases List.mem_append.mp hseen with hfront | hlast
      · have hbefore := (List.pairwise_append.mp hsorted').2.2 q hfront l List.mem_cons_self
        exact hasWhereClause_of_before hbefore
          (hgo l List.getLast?_concat ((priority_le hbefore).antisymm (not_lt.mp hql) ▸ hlt)) hql
      · obtain rfl := List.mem_singleton.mp hlast
        exact hgo q List.getLast?_concat hlt

/-- The loop keeps the needed rules, an initial part of the set. -/
theorem priorityLoop_spec {seen rest : List (Rule γ)} (hsorted : (seen ++ rest).Pairwise Before)
    (hcomp : Comparable (seen ++ rest)) (hneeded : ∀ x ∈ seen, Needed (seen ++ rest) x) :
    ∃ o, priorityLoop seen.getLast? seen rest = some o ∧
      List.Sublist (o.getD (seen ++ rest)) (seen ++ rest) ∧
      ∀ x, x ∈ o.getD (seen ++ rest) ↔ x ∈ seen ++ rest ∧ Needed (seen ++ rest) x := by
  induction rest generalizing seen with
  | nil =>
      refine ⟨none, rfl, List.Sublist.refl _, fun x => ⟨fun hx => ⟨hx, ?_⟩, And.left⟩⟩
      rw [Option.getD_none, List.append_nil] at hx
      exact hneeded x hx
  | cons r rest ih =>
      have hmem : r ∈ seen ++ r :: rest := List.mem_append_right _ List.mem_cons_self
      obtain ⟨_, hafter, hbefore⟩ := List.pairwise_append.mp hsorted
      by_cases hstop : ∃ l, seen.getLast? = some l ∧ l.priority < r.priority ∧
          l.hasWhereClause = false
      · -- the rule before makes this one and all after it superfluous
        obtain ⟨l, hl, hlt, hno⟩ := hstop
        refine ⟨some seen, ?_, List.sublist_append_left _ _, fun x => ?_⟩
        · rw [priorityLoop, hl, if_pos (by simp [hlt, hno])]
        refine ⟨fun hx => ⟨List.mem_append_left _ hx, hneeded x hx⟩, ?_⟩
        rintro ⟨hx, hneed⟩
        rcases List.mem_append.mp hx with hx | hx
        · exact hx
        · have hle : r.priority ≤ x.priority := by
            rcases List.mem_cons.mp hx with rfl | hx
            · exact le_rfl
            · exact priority_le ((List.pairwise_cons.mp hafter).1 x hx)
          have hwhere := hneed l (List.mem_append_left _ (List.mem_of_getLast? hl))
            (hlt.trans_le hle)
          rw [hno] at hwhere
          cases hwhere
      · have hgo : ∀ l, seen.getLast? = some l → l.priority < r.priority →
            l.hasWhereClause = true := by
          intro l hl hlt
          by_contra hno
          exact hstop ⟨l, hl, hlt, Bool.eq_false_iff.mpr hno⟩
        have hneed := needed_next hsorted hneeded hgo
        have hbefore' : ∀ x ∈ seen, Before x r := fun x hx => hbefore x hx r List.mem_cons_self
        have hinsert : insert r seen = some (seen ++ [r]) :=
          insert_last (fun x hx => hcomp.pair (List.mem_append_left _ hx) hmem (hbefore' x hx).ne)
            hbefore'
        have hturn : priorityLoop seen.getLast? seen (r :: rest) =
            priorityLoop (seen ++ [r]).getLast? (seen ++ [r]) rest := by
          rw [priorityLoop, if_neg, hinsert, List.getLast?_concat]
          · rfl
          · intro hany
            cases hl : seen.getLast? with
            | none =>
                rw [hl] at hany
                cases hany
            | some l =>
                rw [hl, Option.any_some, Bool.and_eq_true, decide_eq_true_eq] at hany
                rw [hgo l hl hany.1] at hany
                cases hany.2
        have happ : (seen ++ [r]) ++ rest = seen ++ r :: rest := (List.append_cons seen r rest).symm
        have hih := @ih (seen ++ [r]) (happ ▸ hsorted) (happ ▸ hcomp) (by
          intro x hx
          rw [happ]
          rcases List.mem_append.mp hx with hx | hx
          · exact hneeded x hx
          · exact List.mem_singleton.mp hx ▸ hneed)
        rw [happ] at hih
        rw [hturn]
        exact hih

theorem applyRulePriorities_spec {set : List (Rule γ)} (hsorted : set.Pairwise Before)
    (hcomp : Comparable set) :
    ∃ kept, applyRulePriorities set = some kept ∧ kept.Pairwise Before ∧
      ∀ x, x ∈ kept ↔ x ∈ set ∧ Needed set x := by
  obtain ⟨o, hrun, hsub, hmem⟩ := @priorityLoop_spec γ [] set hsorted hcomp
    fun x hx => absurd hx List.not_mem_nil
  refine ⟨o.getD set, ?_, hsorted.sublist hsub, hmem⟩
  rw [applyRulePriorities]
  exact congrArg (Option.bind · _) hrun

/-! ## The expansion -/

/-- With iterators that survive, the loop parts the rules. -/
theorem separate_survives {whereRules rules rest : List (Rule γ)}
    (hsorted : (whereRules ++ rest).Pairwise Before) (hcomp : Comparable (whereRules ++ rest)) :
    separate true whereRules rules rest =
      some (whereRules ++ rest.filter Rule.hasWhereClause,
        rules ++ rest.filter fun r => !r.hasWhereClause) := by
  induction rest generalizing whereRules rules with
  | nil =>
      rw [List.filter_nil, List.filter_nil, List.append_nil, List.append_nil]
      rfl
  | cons r rest ih =>
      have hbefore : ∀ x ∈ whereRules, Before x r := fun x hx =>
        (List.pairwise_append.mp hsorted).2.2 x hx r List.mem_cons_self
      have happ : (whereRules ++ [r]) ++ rest = whereRules ++ r :: rest :=
        (List.append_cons whereRules r rest).symm
      rw [separate]
      cases hw : r.hasWhereClause with
      | true =>
          have hinsert : insert r whereRules = some (whereRules ++ [r]) :=
            insert_last (fun x hx => hcomp.pair (List.mem_append_left _ hx)
              (List.mem_append_right _ List.mem_cons_self) (hbefore x hx).ne) hbefore
          have hrest := @ih (whereRules ++ [r]) rules (happ ▸ hsorted) (happ ▸ hcomp)
          rw [if_pos rfl, hinsert, Option.bind_eq_bind, Option.bind_some, if_pos rfl, hrest,
            List.filter_cons_of_pos hw, List.filter_cons_of_neg (by rw [hw]; decide),
            List.append_assoc]
          rfl
      | false =>
          have hsub : List.Sublist (whereRules ++ rest) (whereRules ++ r :: rest) :=
            (List.sublist_cons_self r rest).append_left whereRules
          have hrest := @ih whereRules (rules ++ [r]) (hsorted.sublist hsub)
            (hcomp.subset hsub.subset)
          rw [if_neg Bool.false_ne_true, hrest, List.filter_cons_of_neg (by rw [hw]; decide),
            List.filter_cons_of_pos (by rw [hw]; decide), List.append_assoc]
          rfl

/-- Without, it gets stuck at the first rule with a where clause. -/
theorem separate_undefined {whereRules rules rest : List (Rule γ)}
    (h : ∃ r ∈ rest, r.hasWhereClause = true) : separate false whereRules rules rest = none := by
  induction rest generalizing whereRules rules with
  | nil =>
      obtain ⟨r, hr, _⟩ := h
      cases hr
  | cons r rest ih =>
      rw [separate]
      cases hw : r.hasWhereClause with
      | true =>
          rw [if_pos rfl]
          cases insert r whereRules <;> rfl
      | false =>
          rw [if_neg Bool.false_ne_true]
          obtain ⟨q, hq, hqw⟩ := h
          refine ih ⟨q, (List.mem_cons.mp hq).resolve_left ?_, hqw⟩
          rintro rfl
          rw [hw] at hqw
          cases hqw

/-! ## The switch -/

theorem whereClauseFrom_none {cs : List (γ → Bool)} :
    Rule.whereClauseFrom cs = none ↔ cs = [] := by
  induction cs with
  | nil => exact iff_of_true rfl rfl
  | cons c cs ih =>
      cases cs with
      | nil => exact iff_of_false (Option.some_ne_none c) (List.cons_ne_nil c [])
      | cons c' cs =>
          refine iff_of_false (fun h => ?_) (List.cons_ne_nil c _)
          have hrest : (Rule.whereClauseFrom (c' :: cs)).map
            (fun w cell => c cell && w cell) = none := h
          exact List.cons_ne_nil c' cs (ih.mp (Option.map_eq_none_iff.mp hrest))

/-- The conjunction of the conditions. -/
theorem whereClauseFrom_some {cs : List (γ → Bool)} {wc : γ → Bool}
    (h : Rule.whereClauseFrom cs = some wc) (cell : γ) : wc cell = cs.all fun c => c cell := by
  induction cs generalizing wc with
  | nil => cases h
  | cons c cs ih =>
      cases cs with
      | nil =>
          obtain rfl := Option.some.inj h
          exact (Bool.and_true _).symm
      | cons c' cs =>
          have hrest : (Rule.whereClauseFrom (c' :: cs)).map
            (fun w cell => c cell && w cell) = some wc := h
          obtain ⟨w, hw, rfl⟩ := Option.map_eq_some_iff.mp hrest
          rw [List.all_cons, ← ih hw]

theorem getWhereClause_none {r : Rule γ} : r.getWhereClause = none ↔ r.hasWhereClause = false := by
  rw [Rule.getWhereClause, whereClauseFrom_none, Rule.hasWhereClause, decide_eq_false_iff_not,
    List.length_pos_iff, not_not]

theorem holds_of_unconditional {r : Rule γ} (h : r.hasWhereClause = false) (cell : γ) :
    holds cell r = true := by
  rw [Rule.hasWhereClause, decide_eq_false_iff_not, List.length_pos_iff, not_not] at h
  rw [holds, h]
  rfl

/-- The outcome of a rule that was found or not. -/
def outcomeOf : Option (Rule γ) → Outcome γ
  | none => .failed
  | some r => .applied r

/-- The chain takes the first rule that holds. -/
theorem runElse_switch (cell : γ) (rules : List (Rule γ)) :
    runElse cell (genWhereSwitch false rules) = some (outcomeOf (rules.find? (holds cell))) := by
  induction rules with
  | nil => rfl
  | cons r rules ih =>
      rw [genWhereSwitch]
      cases hwc : r.getWhereClause with
      | none =>
          have hholds := holds_of_unconditional (getWhereClause_none.mp hwc) cell
          rw [List.find?_cons_of_pos hholds]
          rfl
      | some wc =>
          have hcell : wc cell = holds cell r := whereClauseFrom_some hwc cell
          show (if wc cell = true then _ else runElse cell (genWhereSwitch false rules)) = _
          rw [hcell, ih]
          cases hholds : holds cell r with
          | true =>
              rw [List.find?_cons_of_pos hholds, if_pos rfl]
              rfl
          | false =>
              rw [List.find?_cons_of_neg (Bool.eq_false_iff.mp hholds), if_neg Bool.false_ne_true]

theorem run_switch (cell : γ) {r : Rule γ} (hw : r.hasWhereClause = true) (rules : List (Rule γ)) :
    run cell (genWhereSwitch true (r :: rules)) =
      some (outcomeOf ((r :: rules).find? (holds cell))) := by
  rw [genWhereSwitch]
  cases hwc : r.getWhereClause with
  | none =>
      rw [getWhereClause_none.mp hwc] at hw
      cases hw
  | some wc =>
      have hcell : wc cell = holds cell r := whereClauseFrom_some hwc cell
      show (if wc cell = true then _ else runElse cell (genWhereSwitch false rules)) = _
      rw [hcell, runElse_switch]
      cases hholds : holds cell r with
      | true =>
          rw [List.find?_cons_of_pos hholds, if_pos rfl]
          rfl
      | false =>
          rw [List.find?_cons_of_neg (Bool.eq_false_iff.mp hholds), if_neg Bool.false_ne_true]

/-! ## Selected -/

/-- What is found in a sorted list comes before all else that could be found. -/
theorem find?_first {l : List (Rule γ)} (hsorted : l.Pairwise Before) {p : Rule γ → Bool}
    {r : Rule γ} (h : l.find? p = some r) :
    r ∈ l ∧ p r = true ∧ ∀ q ∈ l, p q = true → q = r ∨ Before r q := by
  obtain ⟨hr, front, back, rfl, hfront⟩ := List.find?_eq_some_iff_append.mp h
  refine ⟨List.mem_append_right _ List.mem_cons_self, hr, fun q hq hpq => ?_⟩
  rcases List.mem_append.mp hq with hq | hq
  · have hno := hfront q hq
    rw [hpq] at hno
    cases hno
  · rcases List.mem_cons.mp hq with rfl | hq
    · exact Or.inl rfl
    · have hback := (List.pairwise_append.mp hsorted).2.1
      exact Or.inr ((List.pairwise_cons.mp hback).1 q hq)

section Kept

variable {kept : List (Rule γ)}

/-- What the expansion of a set of rules needs to know of it. -/
structure Kept (kept : List (Rule γ)) : Prop where
  sorted : kept.Pairwise Before
  comparable : Comparable kept
  whereFirst : ∀ w ∈ kept, w.hasWhereClause = true → ∀ u ∈ kept, u.hasWhereClause = false →
    Before w u

theorem kept_of_needed {set : List (Rule γ)} (hsorted : kept.Pairwise Before)
    (hcomp : Comparable set) (hmem : ∀ x, x ∈ kept ↔ x ∈ set ∧ Needed set x) : Kept kept := by
  refine ⟨hsorted, hcomp.subset fun x hx => ((hmem x).mp hx).1, fun w hw hww u hu huw => ?_⟩
  have hle : ¬ u.priority < w.priority := by
    intro hlt
    rw [((hmem w).mp hw).2 u ((hmem u).mp hu).1 hlt] at huw
    cases huw
  rcases (not_lt.mp hle).lt_or_eq with hlt | heq
  · exact Or.inl hlt
  · exact Or.inr ⟨heq, Or.inl ⟨hww, huw⟩⟩

/-- A rule with a where clause, if there is one, is the first. -/
theorem Kept.hasWhereClauses (h : Kept kept) (hw : ∃ r ∈ kept, r.hasWhereClause = true) :
    hasWhereClauses kept = true := by
  obtain ⟨w, hw, hww⟩ := hw
  cases kept with
  | nil => cases hw
  | cons x xs =>
      show x.hasWhereClause = true
      by_contra hx
      have hbefore := h.whereFirst w hw hww x List.mem_cons_self (Bool.eq_false_iff.mpr hx)
      rcases List.mem_cons.mp hw with rfl | hw
      · exact hbefore.irrefl
      · exact (((List.pairwise_cons.mp h.sorted).1 w hw).trans hbefore).irrefl

/-- The rules of the expansion: those with where clauses, and the first without. -/
def whereRulesOf (kept : List (Rule γ)) : List (Rule γ) :=
  kept.filter Rule.hasWhereClause ++ (kept.find? fun r => !r.hasWhereClause).toList

theorem mem_whereRulesOf_where {q : Rule γ} (hq : q ∈ kept) (hw : q.hasWhereClause = true) :
    q ∈ whereRulesOf kept := List.mem_append_left _ (List.mem_filter.mpr ⟨hq, hw⟩)

theorem Kept.sorted_whereRulesOf (h : Kept kept) : (whereRulesOf kept).Pairwise Before := by
  refine List.pairwise_append.mpr ⟨h.sorted.sublist List.filter_sublist, ?_, ?_⟩
  · cases kept.find? fun r => !r.hasWhereClause with
    | none => exact List.Pairwise.nil
    | some u => exact List.pairwise_singleton _ u
  · intro w hw u hu
    obtain ⟨hwk, hww⟩ := List.mem_filter.mp hw
    have hfind := Option.mem_toList.mp hu
    have hun := (List.find?_eq_some_iff_append.mp hfind).1
    exact h.whereFirst w hwk hww u (List.mem_of_find?_eq_some hfind) (by simpa using hun)

theorem Kept.addFallback (h : Kept kept) :
    addFallback (kept.filter Rule.hasWhereClause) (kept.filter fun r => !r.hasWhereClause) =
      some (whereRulesOf kept) := by
  have hfind : (kept.filter fun r => !r.hasWhereClause).find? (fun r => !r.hasWhereClause) =
      kept.find? fun r => !r.hasWhereClause := by
    rw [List.find?_filter]
    simp only [Bool.and_self, Bool.decide_and, Bool.decide_eq_true]
  rw [PbWhereRule.addFallback, whereRulesOf, hfind]
  cases hu : kept.find? fun r => !r.hasWhereClause with
  | none =>
      rw [Option.toList_none, List.append_nil]
  | some u =>
      have huk := List.mem_of_find?_eq_some hu
      have hun := (List.find?_eq_some_iff_append.mp hu).1
      have hbefore : ∀ x ∈ kept.filter Rule.hasWhereClause, Before x u := fun x hx =>
        h.whereFirst x (List.mem_filter.mp hx).1 (List.mem_filter.mp hx).2 u huk (by simpa using hun)
      exact insert_last (fun x hx =>
        h.comparable.pair (List.mem_filter.mp hx).1 huk (hbefore x hx).ne) hbefore

theorem Kept.expand (h : Kept kept) (hw : ∃ r ∈ kept, r.hasWhereClause = true) (nextId : ℕ) :
    ∃ e, expandWhereClauses true nextId kept = some e ∧ e.whereRules = whereRulesOf kept := by
  have hseparate := @separate_survives γ [] [] kept h.sorted h.comparable
  rw [List.nil_append, List.nil_append] at hseparate
  obtain ⟨w, hwk, hww⟩ := hw
  -- the new rule is compared with rules that stand beside one with a where clause
  obtain ⟨rules, hrules⟩ := @insert_some γ ⟨nextId, 1, []⟩
    (kept.filter fun r => !r.hasWhereClause) (by
      intro x hx
      obtain ⟨hxk, hxw⟩ := List.mem_filter.mp hx
      refine ⟨h.comparable x hxk w hwk ?_, inRange_new nextId⟩
      rintro rfl
      rw [hww] at hxw
      cases hxw)
  refine ⟨⟨rules, whereRulesOf kept⟩, ?_, rfl⟩
  rw [expandWhereClauses, hseparate, Option.bind_eq_bind, Option.bind_some, h.addFallback,
    Option.bind_eq_bind, Option.bind_some, hrules]
  rfl

/-- The outcome at a cell. -/
theorem Kept.picks (h : Kept kept) (cell : γ) :
    Picks cell kept (outcomeOf ((whereRulesOf kept).find? (holds cell))) := by
  have hsub : whereRulesOf kept ⊆ kept := by
    intro x hx
    rcases List.mem_append.mp hx with hx | hx
    · exact (List.mem_filter.mp hx).1
    · exact List.mem_of_find?_eq_some (Option.mem_toList.mp hx)
  -- a rule without where clause has the fallback before it
  have hfallback : ∀ q ∈ kept, q.hasWhereClause = false →
      ∃ u ∈ whereRulesOf kept, u.hasWhereClause = false ∧ (q = u ∨ Before u q) := by
    intro q hq hqw
    cases hfind : kept.find? fun r => !r.hasWhereClause with
    | none =>
        have hno := List.find?_eq_none.mp hfind q hq
        rw [hqw] at hno
        exact absurd rfl hno
    | some u =>
        obtain ⟨_, hu, hfirst⟩ := find?_first h.sorted hfind
        refine ⟨u, List.mem_append_right _ ?_, by simpa using hu, hfirst q hq ?_⟩
        · rw [hfind]
          exact List.mem_singleton_self u
        · rw [hqw]
          rfl
  cases hfind : (whereRulesOf kept).find? (holds cell) with
  | none =>
      have hno := List.find?_eq_none.mp hfind
      intro q hq
      cases hqw : q.hasWhereClause with
      | true => exact Bool.eq_false_iff.mpr (hno q (mem_whereRulesOf_where hq hqw))
      | false =>
          obtain ⟨u, hu, huw, _⟩ := hfallback q hq hqw
          exact absurd (holds_of_unconditional huw cell) (hno u hu)
  | some r =>
      obtain ⟨hr, hholds, hfirst⟩ := find?_first h.sorted_whereRulesOf hfind
      refine ⟨hsub hr, hholds, fun q hq hqholds => ?_⟩
      cases hqw : q.hasWhereClause with
      | true => exact hfirst q (mem_whereRulesOf_where hq hqw) hqholds
      | false =>
          obtain ⟨u, hu, huw, hqu⟩ := hfallback q hq hqw
          rcases hfirst u hu (holds_of_unconditional huw cell) with rfl | hru
          · exact hqu
          · rcases hqu with rfl | huq
            · exact Or.inr hru
            · exact Or.inr (hru.trans huq)

end Kept

/-- Iterators that survive select as documented, if the priorities can be compared. -/
theorem selected_survives (nextId : ℕ) {rs : List (Rule γ)} (hid : (rs.map Rule.id).Nodup)
    (hcomp : Comparable rs) : Selected true nextId rs := by
  obtain ⟨set, hset, hsorted, hperm⟩ := @insertAll_sorted γ [] rs hcomp hid List.Pairwise.nil
  have hcomp' : Comparable set := hcomp.subset hperm.subset
  obtain ⟨kept, hkept, hsorted', hmem⟩ := applyRulePriorities_spec hsorted hcomp'
  have hk := kept_of_needed hsorted' hcomp' hmem
  have hrs : ∀ x, x ∈ kept ↔ x ∈ rs ∧ Needed rs x := by
    intro x
    rw [hmem]
    exact and_congr hperm.mem_iff
      ⟨fun h q hq => h q (hperm.mem_iff.mpr hq), fun h q hq => h q (hperm.mem_iff.mp hq)⟩
  refine ⟨set, kept, hset, hkept, hrs, hk.hasWhereClauses, fun hw => ?_⟩
  obtain ⟨w, ws, rfl⟩ : ∃ w ws, kept = w :: ws := by
    cases kept with
    | nil => cases hw
    | cons w ws => exact ⟨w, ws, rfl⟩
  have hww : w.hasWhereClause = true := hw
  obtain ⟨e, he, hrules⟩ := hk.expand ⟨w, List.mem_cons_self, hww⟩ nextId
  refine ⟨e, he, fun cell => ⟨_, ?_, hk.picks cell, fun hun hfailed => ?_⟩⟩
  · rw [hrules, whereRulesOf, List.filter_cons_of_pos hww]
    exact run_switch cell hww _
  · -- the first unconditional rule is needed
    obtain ⟨q, hq, hqw⟩ := hun
    have hfind : set.find? (fun r => !r.hasWhereClause) ≠ none := by
      intro hnone
      have hno := List.find?_eq_none.mp hnone q (hperm.mem_iff.mpr hq)
      rw [hqw] at hno
      exact hno rfl
    obtain ⟨u, hu⟩ := Option.ne_none_iff_exists'.mp hfind
    obtain ⟨hus, huw, hfirst⟩ := find?_first hsorted hu
    have huk : u ∈ w :: ws := by
      refine (hmem u).mpr ⟨hus, fun p hp hlt => ?_⟩
      by_contra hpw
      rcases hfirst p hp (by simpa using hpw) with rfl | hbefore
      · exact lt_irrefl _ hlt
      · exact absurd (priority_le hbefore) (not_le.mpr hlt)
    have hpicks := hk.picks cell
    rw [hfailed] at hpicks
    have hno := hpicks u huk
    rw [holds_of_unconditional (by simpa using huw) cell] at hno
    cases hno

/-- **WHICH RULES ARE SELECTED AS DOCUMENTED**: those whose priorities can be compared, with no
    where clause that is needed.  A needed one is erased from under the iterator. -/
theorem selected_iff (nextId : ℕ) (rs : List (Rule γ)) (hid : (rs.map Rule.id).Nodup) :
    (∀ survives, Selected survives nextId rs) ↔
      Comparable rs ∧ ∀ r ∈ rs, r.hasWhereClause = true →
        ∃ q ∈ rs, q.priority < r.priority ∧ q.hasWhereClause = false := by
  constructor
  · intro h
    obtain ⟨set, kept, hset, _, hrs, hfirst, hexpand⟩ := h false
    refine ⟨comparable_of_insertAll hset, fun r hr hw => ?_⟩
    by_contra hno
    have hneeded : Needed rs r := by
      intro q hq hlt
      by_contra hqw
      exact hno ⟨q, hq, hlt, Bool.eq_false_iff.mpr hqw⟩
    have hkept := (hrs r).mpr ⟨hr, hneeded⟩
    obtain ⟨e, he, _⟩ := hexpand (hfirst ⟨r, hkept, hw⟩)
    rw [expandWhereClauses, separate_undefined ⟨r, hkept, hw⟩] at he
    cases he
  · rintro ⟨hcomp, hsuperfluous⟩ survives
    obtain ⟨set, kept, hset, hkept, hrs, hfirst, hexpand⟩ := selected_survives nextId hid hcomp
    refine ⟨set, kept, hset, hkept, hrs, hfirst, fun hw => ?_⟩
    -- no rule that is kept has a where clause
    cases kept with
    | nil => cases hw
    | cons w ws =>
        obtain ⟨hmem, hneed⟩ := (hrs w).mp List.mem_cons_self
        obtain ⟨q, hq, hlt, hqw⟩ := hsuperfluous w hmem hw
        rw [hneed q hq hlt] at hqw
        cases hqw

/-- A primary rule makes a where clause of the default priority superfluous. -/
theorem selected_primary :
    let rs : List (Rule ℤ) := [⟨0, 0, []⟩, ⟨1, 1, [fun x => decide (x < 5)]⟩]
    (rs.map Rule.id).Nodup ∧ ∀ survives, Selected survives 2 rs := by
  refine ⟨by decide, (selected_iff 2 _ (by decide)).mpr ⟨fun x hx _ _ _ => ?_, fun r hr hw => ?_⟩⟩
  · rcases List.mem_cons.mp hx with rfl | hx
    · exact ⟨by decide, by decide⟩
    · obtain rfl := List.mem_singleton.mp hx
      exact ⟨by decide, by decide⟩
  · rcases List.mem_cons.mp hr with rfl | hr
    · cases hw
    · obtain rfl := List.mem_singleton.mp hr
      exact ⟨_, List.mem_cons_self, by decide, rfl⟩

/-- A where clause beside a rule without: its rule is erased from under the iterator.  And a
    priority that is too large to be doubled. -/
theorem not_selected_where :
    (¬ ∀ survives, Selected survives 2
      [⟨0, 1, [fun x : ℤ => decide (x < 5)]⟩, ⟨1, 1, []⟩]) ∧
      ∀ survives, ¬ Selected survives 2 [⟨0, 1500000000, ([] : List (ℤ → Bool))⟩, ⟨1, 1, []⟩] := by
  refine ⟨fun h => ?_, fun survives h => ?_⟩
  · obtain ⟨set, kept, hset, hkept, -, -, hexpand⟩ := h false
    obtain rfl := Option.some.inj hset
    obtain rfl := Option.some.inj hkept
    obtain ⟨e, he, -⟩ := hexpand rfl
    cases he
  · obtain ⟨set, kept, hset, -⟩ := h
    cases hset

end PbWhereRule
