import PetaBricks.LiftVardeclScopeProofs
import Mathlib.Data.List.Nodup

/-! # When the binding is kept

    The pass knows identifiers by their spelling, and scopes by the braces around them.  So it
    takes a method or a member for the variable of that name, and a variable that an `if` or a
    branch without braces declares for one of the block around; it declares what begins an
    expression list with a type and a name, and nothing else; and it does not look into the
    bounds of an array, nor into raw text.  `Apart` says that none of this makes a difference
    (`lifted_right_iff`). -/

namespace PbLiftVardecl

open PbDecimal
open PbScoping

/-! ## When the binding is kept -/

/-- The variable of this name that the blocks around hold is the one that the identifier
    stands for. -/
def Occurrence.Fits (o : Occurrence) : Prop := o.role ≠ .declared ∧ o.near = o.decl

/-- No variable is declared or used. -/
def Occurrence.Outside (o : Occurrence) : Prop := o.role ≠ .declared ∧ o.decl = none

/-- Here the pass takes a declaration to begin. -/
def Taken (first : Bool) (o : Occurrence) (s : Name) (fwd : List (Expr Occurrence)) : Prop :=
  first = true ∧ s ∈ typeScope ∧ o.near = none ∧ smells fwd = true

instance (first : Bool) (o : Occurrence) (s : Name) (fwd : List (Expr Occurrence)) :
    Decidable (Taken first o s fwd) :=
  inferInstanceAs (Decidable (_ ∧ _))

/-- A name is declared that the block does not hold yet, and no variable is used in the bounds. -/
def Declares (ss : List (Expr Occurrence)) (y : Expr Occurrence) (ys : List (Expr Occurrence)) :
    Prop :=
  (∃ d x, y = .ident d x ∧ d.role = .declared ∧ d.again = false) ∧
    ∃ extra, nameExtra ys = some extra ∧ ∀ o ∈ identsExprs (ss ++ extra), o.1.Outside

instance (o : Occurrence) : Decidable o.Fits := inferInstanceAs (Decidable (_ ∧ _))

instance (o : Occurrence) : Decidable o.Outside := inferInstanceAs (Decidable (_ ∧ _))

instance (ss : List (Expr Occurrence)) (y : Expr Occurrence) (ys : List (Expr Occurrence)) :
    Decidable (Declares ss y ys) :=
  have : Decidable (∃ d x, y = .ident d x ∧ d.role = .declared ∧ d.again = false) :=
    match y with
    | .leaf _ _ => isFalse fun ⟨_, _, h, _⟩ => by cases h
    | .node _ _ => isFalse fun ⟨_, _, h, _⟩ => by cases h
    | .ident d x => decidable_of_iff (d.role = .declared ∧ d.again = false)
        ⟨fun h => ⟨d, x, rfl, h⟩, fun ⟨_, _, h, hd⟩ => by cases h; exact hd⟩
  have : Decidable (∃ extra, nameExtra ys = some extra ∧
      ∀ o ∈ identsExprs (ss ++ extra), o.1.Outside) :=
    match h : nameExtra ys with
    | none => isFalse fun ⟨_, h', _⟩ => by cases h'
    | some extra => decidable_of_iff (∀ o ∈ identsExprs (ss ++ extra), o.1.Outside)
        ⟨fun h => ⟨extra, rfl, h⟩, fun ⟨_, h', ho⟩ => by cases h'; exact ho⟩
  inferInstanceAs (Decidable (_ ∧ _))

instance (fwd : List (Expr Occurrence)) :
    Decidable (∀ y ys, behindStars fwd = y :: ys → Declares (stars fwd) y ys) :=
  match behindStars fwd with
  | [] => isTrue fun _ _ h => by cases h
  | y :: ys => decidable_of_iff (Declares (stars fwd) y ys)
      ⟨fun h _ _ heq => by cases heq; exact h, fun h => h y ys rfl⟩

/-- The elements of a declaration behind its type. -/
def popped (first : Bool) (fwd : List (Expr Occurrence)) : Expr Occurrence → ℕ
  | .ident o s =>
      if Taken first o s fwd then
        match behindStars fwd with
        | [] => (stars fwd).length
        | _ :: ys => (stars fwd).length + 1 + ((nameExtra ys).getD []).length
      else 0
  | _ => 0

mutual

def ApartExpr (first : Bool) (fwd : List (Expr Occurrence)) : Expr Occurrence → Prop
  | .leaf _ _ => True
  | .ident o s => o.Fits ∧ (Taken first o s fwd →
      ∀ y ys, behindStars fwd = y :: ys → Declares (stars fwd) y ys)
  | .node _ parts => ApartExprs parts true 0

def ApartExprs : List (Expr Occurrence) → Bool → ℕ → Prop
  | [], _, _ => True
  | e :: fwd, first, 0 => ApartExpr first fwd e ∧ ApartExprs fwd false (popped first fwd e)
  | _ :: fwd, first, k + 1 => ApartExprs fwd first k

end

mutual

def ApartStmt : Stmt Occurrence → Prop
  | .basic es => ApartExprs es true 0
  | .block ss => ApartStmts ss
  | .control _ es parts => ApartExprs es true 0 ∧ ApartStmts parts
  | .raw src => ∀ o ∈ identsExprs src, o.1.Outside

/-- Wherever an identifier stands, it stands for what the blocks around hold under its name, and
    a declaration is one that the pass knows. -/
def ApartStmts : List (Stmt Occurrence) → Prop
  | [] => True
  | s :: ss => ApartStmt s ∧ ApartStmts ss

end

mutual

def ApartExpr.dec (first : Bool) (fwd : List (Expr Occurrence)) :
    ∀ x : Expr Occurrence, Decidable (ApartExpr first fwd x)
  | .leaf _ _ => isTrue trivial
  | .ident _ _ => inferInstanceAs (Decidable (_ ∧ (_ → _)))
  | .node _ parts => ApartExprs.dec parts true 0

def ApartExprs.dec : ∀ (es : List (Expr Occurrence)) (first : Bool) (k : ℕ),
    Decidable (ApartExprs es first k)
  | [], _, _ => isTrue trivial
  | e :: fwd, first, 0 => @instDecidableAnd _ _ (ApartExpr.dec first fwd e) (ApartExprs.dec fwd false _)
  | _ :: fwd, first, k + 1 => ApartExprs.dec fwd first k

end

mutual

def ApartStmt.dec : ∀ s : Stmt Occurrence, Decidable (ApartStmt s)
  | .basic es => ApartExprs.dec es true 0
  | .block ss => ApartStmts.dec ss
  | .control _ es parts => @instDecidableAnd _ _ (ApartExprs.dec es true 0) (ApartStmts.dec parts)
  | .raw src => inferInstanceAs (Decidable (∀ o ∈ identsExprs src, o.1.Outside))

def ApartStmts.dec : ∀ ss : List (Stmt Occurrence), Decidable (ApartStmts ss)
  | [] => isTrue trivial
  | s :: ss => @instDecidableAnd _ _ (ApartStmt.dec s) (ApartStmts.dec ss)

end

instance (ss : List (Stmt Occurrence)) : Decidable (ApartStmts ss) := ApartStmts.dec ss

/-! ## The lists that the pass puts together -/

section Rest

variable {A : Type}

/-- What `visitExprs` adds to what is behind. -/
def visitRest : List (Expr A) → LiftVardeclPass A → Bool → ℕ →
    Option (LiftVardeclPass A × List (Expr A))
  | [], p, _, _ => some (p, [])
  | e :: fwd, p, first, 0 => (visitExpr first fwd e p).bind fun r =>
      (visitRest fwd r.1 false r.2.2).map fun q => (q.1, r.2.1 ++ q.2)
  | _ :: fwd, p, first, pops + 1 => visitRest fwd p first pops

/-- An identifier is replaced or kept, or it begins a declaration, for which a member is added. -/
theorem before_cases {p : LiftVardeclPass A} {first : Bool} {a : A} {s : Name}
    {fwd : List (Expr A)} {r : LiftVardeclPass A × List (Expr A) × ℕ}
    (h : p.before first a s fwd = some r) :
    r.1 = p ∧ r.2.1 ≠ [] ∨
      ∃ y ys extra m, behindStars fwd = y :: ys ∧ nameExtra ys = some extra ∧
        r = (p.declare y.text m, [.ident m.source m.name],
          (stars fwd).length + 1 + extra.length) ∧
        (m.source = a ∨ ∃ x, y = .ident m.source x) := by
  rw [LiftVardeclPass.before] at h
  split at h
  · split at h
    · obtain rfl := Option.some.inj h
      exact .inl ⟨rfl, List.cons_ne_nil _ _⟩
    · rename_i y ys hbehind
      obtain ⟨extra, hextra, hm⟩ := Option.bind_eq_some_iff.mp h
      rw [LiftVardeclPass.addMember] at hm
      split at hm
      · cases hm
      · obtain rfl := Option.some.inj hm
        refine .inr ⟨y, ys, extra, _, hbehind, hextra, rfl, ?_⟩
        cases y with
        | ident b x => exact .inr ⟨x, rfl⟩
        | leaf t v => exact .inl rfl
        | node t parts => exact .inl rfl
  · obtain rfl := Option.some.inj h
    exact .inl ⟨rfl, List.cons_ne_nil _ _⟩

theorem visitExpr_ne_nil {first : Bool} {fwd : List (Expr A)} {x : Expr A}
    {p : LiftVardeclPass A} {r : LiftVardeclPass A × List (Expr A) × ℕ}
    (h : visitExpr first fwd x p = some r) : r.2.1 ≠ [] := by
  cases x with
  | leaf t v =>
      rw [visitExpr] at h
      obtain rfl := Option.some.inj h
      exact List.cons_ne_nil _ _
  | ident a s =>
      rw [visitExpr] at h
      rcases before_cases h with ⟨-, hne⟩ | ⟨y, ys, extra, m, -, -, rfl, -⟩
      · exact hne
      · exact List.cons_ne_nil _ _
  | node t parts =>
      rw [visitExpr] at h
      obtain ⟨q, -, rfl⟩ := Option.map_eq_some_iff.mp h
      exact List.cons_ne_nil _ _

theorem visitExprs_eq (es : List (Expr A)) (p : LiftVardeclPass A) (bk : List (Expr A)) (k : ℕ) :
    visitExprs es p bk k =
      (visitRest es p bk.isEmpty k).map fun r => (r.1, bk ++ r.2) := by
  induction es generalizing p bk k with
  | nil => rw [visitExprs, visitRest, Option.map_some, List.append_nil]
  | cons e fwd ih =>
      cases k with
      | succ k => rw [visitExprs, visitRest, ih]
      | zero =>
          rw [visitExprs, visitRest, Option.map_bind]
          refine Option.bind_congr fun r hr => ?_
          have hne : (bk ++ r.2.1).isEmpty = false := by
            rw [List.isEmpty_eq_false_iff]
            exact List.append_ne_nil_of_right_ne_nil _ (visitExpr_ne_nil hr)
          rw [ih, hne, Function.comp_apply, Option.map_map]
          refine congrArg (Option.map · _) (funext fun q => ?_)
          rw [Function.comp_apply, List.append_assoc]

/-- Members are only added, for identifiers that are visited. -/
def AddedFor (p p' : LiftVardeclPass A) (sources : List (A × Name)) : Prop :=
  ∃ added, p'.members = p.members ++ added ∧ ∀ m ∈ added, ∃ s, (m.source, s) ∈ sources

theorem AddedFor.refl (p : LiftVardeclPass A) (l : List (A × Name)) : AddedFor p p l :=
  ⟨[], (List.append_nil _).symm, fun _ hm => by cases hm⟩

theorem AddedFor.trans {p q r : LiftVardeclPass A} {l l' : List (A × Name)}
    (h : AddedFor p q l) (h' : AddedFor q r l') : AddedFor p r (l ++ l') := by
  obtain ⟨a, ha, hl⟩ := h
  obtain ⟨b, hb, hl'⟩ := h'
  refine ⟨a ++ b, by rw [hb, ha, List.append_assoc], fun m hm => ?_⟩
  rcases List.mem_append.mp hm with hm | hm
  · obtain ⟨s, hs⟩ := hl m hm
    exact ⟨s, List.mem_append_left _ hs⟩
  · obtain ⟨s, hs⟩ := hl' m hm
    exact ⟨s, List.mem_append_right _ hs⟩

theorem stars_append (fwd : List (Expr A)) : stars fwd ++ behindStars fwd = fwd :=
  List.takeWhile_append_dropWhile

theorem take_stars {fwd ys : List (Expr A)} {y : Expr A} (h : behindStars fwd = y :: ys) (k : ℕ) :
    fwd.take ((stars fwd).length + 1 + k) = stars fwd ++ y :: ys.take k := by
  calc fwd.take ((stars fwd).length + 1 + k)
      = (stars fwd ++ y :: ys).take ((stars fwd).length + 1 + k) := by rw [← h, stars_append]
    _ = stars fwd ++ y :: ys.take k := by
        rw [Nat.add_assoc, List.take_length_add_append, Nat.add_comm 1, List.take_succ_cons]

/-- The bounds are what comes next. -/
theorem nameExtra_take {ys extra : List (Expr A)} (h : nameExtra ys = some extra) :
    ∃ rest, ys = extra ++ rest := by
  have hclosing : ∀ {es extra : List (Expr A)}, closing es = some extra →
      ∃ rest, es = extra ++ rest := by
    intro es
    induction es with
    | nil => intro extra h; cases h
    | cons e es ih =>
        intro extra h
        rw [closing] at h
        split at h
        · obtain rfl := Option.some.inj h
          exact ⟨es, rfl⟩
        · obtain ⟨more, hmore, rfl⟩ := Option.map_eq_some_iff.mp h
          obtain ⟨rest, rfl⟩ := ih hmore
          exact ⟨rest, rfl⟩
  cases ys with
  | nil =>
      obtain rfl := Option.some.inj h
      exact ⟨[], rfl⟩
  | cons e es =>
      rw [nameExtra] at h
      split at h
      · cases h
      · split at h
        · exact hclosing h
        · obtain rfl := Option.some.inj h
          exact ⟨_, rfl⟩

mutual

theorem visitExpr_added : ∀ (x : Expr A) (first : Bool) (fwd : List (Expr A))
    (p : LiftVardeclPass A) (r : LiftVardeclPass A × List (Expr A) × ℕ),
    visitExpr first fwd x p = some r →
      AddedFor p r.1 (x.idents ++ identsExprs (fwd.take r.2.2))
  | .leaf t v, first, fwd, p, r, h => by
      obtain rfl := Option.some.inj h
      exact .refl p _
  | .ident a s, first, fwd, p, r, h => by
      rcases before_cases h with ⟨hp, -⟩ | ⟨y, ys, extra, m, hbehind, -, rfl, hsource⟩
      · rw [hp]
        exact .refl p _
      · refine ⟨[m], rfl, fun m' hm' => ?_⟩
        rw [List.mem_singleton.mp hm']
        rcases hsource with hsource | ⟨x, rfl⟩
        · exact ⟨s, by rw [hsource]; exact List.mem_cons_self⟩
        · refine ⟨x, List.mem_append_right _ ?_⟩
          rw [take_stars hbehind, identsExprs_append]
          exact List.mem_append_right _ (List.mem_append_left _ (List.mem_singleton_self _))
  | .node t parts, first, fwd, p, r, h => by
      rw [visitExpr, visitExprs_eq, Option.map_map] at h
      obtain ⟨q, hq, rfl⟩ := Option.map_eq_some_iff.mp h
      obtain ⟨added, hadded, hsources⟩ := visitRest_added parts p true 0 q hq
      exact ⟨added, hadded, fun m hm => (hsources m hm).imp fun s hs => List.mem_append_left _ hs⟩

theorem visitRest_added : ∀ (es : List (Expr A)) (p : LiftVardeclPass A) (first : Bool) (k : ℕ)
    (r : LiftVardeclPass A × List (Expr A)), visitRest es p first k = some r →
      AddedFor p r.1 (identsExprs (es.drop k))
  | [], p, first, k, r, h => by
      obtain rfl := Option.some.inj h
      exact .refl p _
  | _ :: fwd, p, first, k + 1, r, h => visitRest_added fwd p first k r h
  | e :: fwd, p, first, 0, r, h => by
      rw [visitRest] at h
      obtain ⟨q, hq, hrest⟩ := Option.bind_eq_some_iff.mp h
      obtain ⟨r', hr', rfl⟩ := Option.map_eq_some_iff.mp hrest
      have hboth := (visitExpr_added e first fwd p q hq).trans
        (visitRest_added fwd q.1 false q.2.2 r' hr')
      rw [List.append_assoc, ← identsExprs_append, List.take_append_drop] at hboth
      exact hboth

end

mutual

theorem visitStmt_added : ∀ (s : Stmt A) (p : LiftVardeclPass A) (r : LiftVardeclPass A × Stmt A),
    visitStmt s p = some r → AddedFor p r.1 s.idents
  | .basic es, p, r, h => by
      rw [visitStmt, visitExprs_eq, Option.map_map] at h
      obtain ⟨q, hq, rfl⟩ := Option.map_eq_some_iff.mp h
      exact visitRest_added es p true 0 q hq
  | .block ss, p, r, h => by
      rw [visitStmt] at h
      obtain ⟨q, hq, rfl⟩ := Option.map_eq_some_iff.mp h
      exact visitStmts_added ss p.pushScope q hq
  | .control t es parts, p, r, h => by
      rw [visitStmt, visitExprs_eq] at h
      obtain ⟨q, hq, hparts⟩ := Option.bind_eq_some_iff.mp h
      obtain ⟨q', hq', rfl⟩ := Option.map_eq_some_iff.mp hq
      obtain ⟨r', hr', rfl⟩ := Option.map_eq_some_iff.mp hparts
      exact (visitRest_added es p true 0 q' hq').trans (visitStmts_added parts _ r' hr')
  | .raw src, p, r, h => by
      obtain rfl := Option.some.inj h
      exact .refl p _

theorem visitStmts_added : ∀ (ss : List (Stmt A)) (p : LiftVardeclPass A)
    (r : LiftVardeclPass A × List (Stmt A)), visitStmts ss p = some r →
      AddedFor p r.1 (identsStmts ss)
  | [], p, r, h => by
      obtain rfl := Option.some.inj h
      exact .refl p _
  | s :: ss, p, r, h => by
      rw [visitStmts] at h
      obtain ⟨q, hq, hrest⟩ := Option.bind_eq_some_iff.mp h
      obtain ⟨r', hr', rfl⟩ := Option.map_eq_some_iff.mp hrest
      exact (visitStmt_added s p q hq).trans (visitStmts_added ss q.1 r' hr')

end

end Rest

/-! ## A part of the body, and the part of the pass over it -/

/-- The state, and the identifiers that the pass leaves. -/
abbrev Outcome := Option (LiftVardeclPass Occurrence × List (Occurrence × Name))

/-- Each declaration has the name of a member of its own. -/
def Canon (member : ℕ → Name) (e : Env Name) : Prop :=
  ∀ n d, e.decls[n]? = some d → member n = memberName d.1 d.2

def Distinct (member : ℕ → Name) (hi : ℕ) : Prop :=
  ∀ n < hi, ∀ k < hi, member n = member k → n = k

/-- The binding is kept where the declarations are those from one number to another. -/
structure Kept (member : ℕ → Name) (lo hi : ℕ) (out : List (Occurrence × Name))
    (added : List (Member Occurrence)) : Prop where
  spelled : ∀ o ∈ out ++ added.flatMap Member.idents, Spelled member o
  declared : ∀ m ∈ added, m.source.role = .declared
  created : ∀ n, lo ≤ n → n < hi → ∃ m ∈ added, m.source.decl = some n ∧ m.name = member n

/-- A declaration for which a member is added is in these. -/
def Adds (lo hi : ℕ) (p : LiftVardeclPass Occurrence) (result : Outcome) : Prop :=
  ∀ r, result = some r → ∃ added, r.1.members = p.members ++ added ∧
    ∀ m ∈ added, m.source.role = .declared → ∃ n, m.source.decl = some n ∧ lo ≤ n ∧ n < hi

/-- The pass keeps the binding of a part of the body just if the part is apart; then its scopes
    are those of C++ behind the part as well. -/
structure Step (member : ℕ → Name) (e e' : Env Name) (p : LiftVardeclPass Occurrence)
    (apart : Prop) (result : Outcome) : Prop where
  kept_iff : apart ∧ Canon member e' ↔ ∃ r added, result = some r ∧
    r.1.members = p.members ++ added ∧
    Kept member e.decls.length e'.decls.length r.2 added ∧ Distinct member e'.decls.length
  follows : apart → Canon member e' → ∀ r, result = some r → Follows e' r.1

def andThen (r₁ : Outcome) (r₂ : LiftVardeclPass Occurrence → Outcome) : Outcome :=
  r₁.bind fun q => (r₂ q.1).map fun r => (r.1, q.2 ++ r.2)

section Steps

variable {member : ℕ → Name} {e e₁ e₂ : Env Name} {p : LiftVardeclPass Occurrence}
  {a₁ a₂ : Prop} {r₁ : Outcome} {r₂ : LiftVardeclPass Occurrence → Outcome} {lo mid hi : ℕ}
  {out₁ out₂ : List (Occurrence × Name)} {m₁ m₂ : List (Member Occurrence)}
  {names : List Name}

theorem Kept.append (h₁ : Kept member lo mid out₁ m₁) (h₂ : Kept member mid hi out₂ m₂) :
    Kept member lo hi (out₁ ++ out₂) (m₁ ++ m₂) := by
  refine ⟨fun o ho => ?_, fun m hm => ?_, fun n hlo hhi => ?_⟩
  · rw [List.flatMap_append] at ho
    simp only [List.mem_append] at ho
    rcases ho with (ho | ho) | ho | ho
    · exact h₁.spelled o (List.mem_append_left _ ho)
    · exact h₂.spelled o (List.mem_append_left _ ho)
    · exact h₁.spelled o (List.mem_append_right _ ho)
    · exact h₂.spelled o (List.mem_append_right _ ho)
  · rcases List.mem_append.mp hm with hm | hm
    · exact h₁.declared m hm
    · exact h₂.declared m hm
  · by_cases hmid : n < mid
    · obtain ⟨m, hm, hdecl⟩ := h₁.created n hlo hmid
      exact ⟨m, List.mem_append_left _ hm, hdecl⟩
    · obtain ⟨m, hm, hdecl⟩ := h₂.created n (not_lt.mp hmid) hhi
      exact ⟨m, List.mem_append_right _ hm, hdecl⟩

/-- The members of the two parts are told apart by the numbers of their declarations. -/
theorem Kept.split (h : Kept member lo hi (out₁ ++ out₂) (m₁ ++ m₂)) (hlo : lo ≤ mid)
    (hhi : mid ≤ hi)
    (h₁ : ∀ m ∈ m₁, m.source.role = .declared → ∃ n, m.source.decl = some n ∧ lo ≤ n ∧ n < mid)
    (h₂ : ∀ m ∈ m₂, m.source.role = .declared → ∃ n, m.source.decl = some n ∧ mid ≤ n ∧ n < hi) :
    Kept member lo mid out₁ m₁ ∧ Kept member mid hi out₂ m₂ := by
  have hspelled : ∀ o, (o ∈ out₁ ∨ o ∈ m₁.flatMap Member.idents) ∨
      (o ∈ out₂ ∨ o ∈ m₂.flatMap Member.idents) → Spelled member o := by
    intro o ho
    apply h.spelled
    rw [List.flatMap_append]
    simp only [List.mem_append]
    tauto
  refine ⟨⟨fun o ho => ?_, fun m hm => ?_, fun n hn hn' => ?_⟩,
    ⟨fun o ho => ?_, fun m hm => ?_, fun n hn hn' => ?_⟩⟩
  · exact hspelled o (.inl (List.mem_append.mp ho))
  · exact h.declared m (List.mem_append_left _ hm)
  · obtain ⟨m, hm, hdecl, hname⟩ := h.created n hn (hn'.trans_le hhi)
    rcases List.mem_append.mp hm with hm | hm
    · exact ⟨m, hm, hdecl, hname⟩
    · obtain ⟨k, hk, hmid, -⟩ := h₂ m hm (h.declared m (List.mem_append_right _ hm))
      have hkn : k = n := Option.some.inj (hk.symm.trans hdecl)
      omega
  · exact hspelled o (.inr (List.mem_append.mp ho))
  · exact h.declared m (List.mem_append_right _ hm)
  · obtain ⟨m, hm, hdecl, hname⟩ := h.created n (hlo.trans hn) hn'
    rcases List.mem_append.mp hm with hm | hm
    · obtain ⟨k, hk, -, hmid⟩ := h₁ m hm (h.declared m (List.mem_append_left _ hm))
      have hkn : k = n := Option.some.inj (hk.symm.trans hdecl)
      omega
    · exact ⟨m, hm, hdecl, hname⟩

theorem Grows.canon (h : Grows e e₁ names) (hcanon : Canon member e₁) : Canon member e :=
  fun n d hd => hcanon n d (h.get hd)

theorem Canon.declare (h : Canon member e) {x : Name}
    (hx : member e.decls.length = memberName e.block.path x) : Canon member (e.declare x) := by
  intro n d hn
  rcases Nat.lt_or_ge n e.decls.length with hlt | hge
  · exact h n d ((List.getElem?_append_left hlt).symm.trans hn)
  · have hlen := (List.getElem?_eq_some_iff.mp hn).1
    rw [Env.declare, List.length_append, List.length_singleton] at hlen
    obtain rfl : n = e.decls.length := by omega
    obtain rfl := Option.some.inj (List.getElem?_concat_length.symm.trans hn)
    exact hx

/-- Two parts behind one another. -/
theorem Step.andThen (hgrows₁ : Grows e e₁ names) {names' : List Name}
    (hgrows₂ : Grows e₁ e₂ names') (hadds₁ : Adds e.decls.length e₁.decls.length p r₁)
    (hadds₂ : ∀ q, Adds e₁.decls.length e₂.decls.length q (r₂ q))
    (h₁ : Step member e e₁ p a₁ r₁)
    (h₂ : ∀ q, Follows e₁ q → Canon member e₁ → Step member e₁ e₂ q a₂ (r₂ q)) :
    Step member e e₂ p (a₁ ∧ a₂) (andThen r₁ r₂) := by
  refine ⟨⟨?_, ?_⟩, ?_⟩
  · rintro ⟨⟨ha₁, ha₂⟩, hcanon⟩
    have hcanon₁ := hgrows₂.canon hcanon
    obtain ⟨q, added₁, hq, hmembers₁, hkept₁, -⟩ := h₁.kept_iff.mp ⟨ha₁, hcanon₁⟩
    have hfollows := h₁.follows ha₁ hcanon₁ q hq
    obtain ⟨r, added₂, hr, hmembers₂, hkept₂, hdistinct⟩ :=
      (h₂ q.1 hfollows hcanon₁).kept_iff.mp ⟨ha₂, hcanon⟩
    refine ⟨(r.1, q.2 ++ r.2), added₁ ++ added₂, ?_, ?_, hkept₁.append hkept₂, hdistinct⟩
    · rw [PbLiftVardecl.andThen, hq, Option.bind_some, hr, Option.map_some]
    · rw [hmembers₂, hmembers₁, List.append_assoc]
  · rintro ⟨r, added, hr, hmembers, hkept, hdistinct⟩
    obtain ⟨q, hq, hrest⟩ := Option.bind_eq_some_iff.mp hr
    obtain ⟨r', hr', rfl⟩ := Option.map_eq_some_iff.mp hrest
    obtain ⟨added₁, hmembers₁, hnumbers₁⟩ := hadds₁ q hq
    obtain ⟨added₂, hmembers₂, hnumbers₂⟩ := hadds₂ q.1 r' hr'
    have hadded : added = added₁ ++ added₂ := by
      refine (List.append_right_inj p.members).mp ?_
      rw [← hmembers, ← List.append_assoc, ← hmembers₁, ← hmembers₂]
    subst hadded
    obtain ⟨hkept₁, hkept₂⟩ :=
      hkept.split hgrows₁.length_le hgrows₂.length_le hnumbers₁ hnumbers₂
    have hdistinct₁ : Distinct member e₁.decls.length := fun n hn k hk =>
      hdistinct n (hn.trans_le hgrows₂.length_le) k (hk.trans_le hgrows₂.length_le)
    obtain ⟨ha₁, hcanon₁⟩ := h₁.kept_iff.mpr ⟨q, added₁, hq, hmembers₁, hkept₁, hdistinct₁⟩
    have hstep := h₂ q.1 (h₁.follows ha₁ hcanon₁ q hq) hcanon₁
    obtain ⟨ha₂, hcanon₂⟩ := hstep.kept_iff.mpr ⟨r', added₂, hr', hmembers₂, hkept₂, hdistinct⟩
    exact ⟨⟨ha₁, ha₂⟩, hcanon₂⟩
  · rintro ⟨ha₁, ha₂⟩ hcanon r hr
    obtain ⟨q, hq, hrest⟩ := Option.bind_eq_some_iff.mp hr
    obtain ⟨r', hr', rfl⟩ := Option.map_eq_some_iff.mp hrest
    have hcanon₁ := hgrows₂.canon hcanon
    exact (h₂ q.1 (h₁.follows ha₁ hcanon₁ q hq) hcanon₁).follows ha₂ hcanon r' hr'

/-- Where the declarations are those of before, names of members tell them apart. -/
theorem Follows.distinct_of_canon (h : Follows e p) (hcanon : Canon member e) :
    Distinct member e.decls.length := by
  intro n hn k hk heq
  rw [hcanon n _ (List.getElem?_eq_getElem hn), hcanon k _ (List.getElem?_eq_getElem hk)] at heq
  obtain ⟨hpath, hname⟩ := memberName_injective heq
  exact (List.Nodup.getElem_inj_iff h.distinct).mp (Prod.ext hpath hname)

/-- A part without declarations, over which the pass adds no member. -/
theorem Step.of_still {apart : Prop} {out : List (Occurrence × Name)} {p' : LiftVardeclPass Occurrence}
    (h : Follows e p) (hcanon : Canon member e) (hmembers : p'.members = p.members)
    (hfollows : Follows e p')
    (hapart : apart ↔ ∀ o ∈ out, Spelled member o) :
    Step member e e p apart (some (p', out)) := by
  refine ⟨⟨fun hleft => ?_, ?_⟩, fun _ _ r hr => ?_⟩
  · refine ⟨_, [], rfl, hmembers.trans (List.append_nil _).symm, ?_, h.distinct_of_canon hcanon⟩
    refine ⟨fun o ho => hapart.mp hleft.1 o ?_, fun m hm => (by cases hm), fun n hn hn' => by omega⟩
    rwa [List.flatMap_nil, List.append_nil] at ho
  · rintro ⟨r, added, hr, -, hkept, -⟩
    obtain rfl := Option.some.inj hr
    exact ⟨hapart.mpr fun o ho => hkept.spelled o (List.mem_append_left _ ho), hcanon⟩
  · obtain rfl := Option.some.inj hr
    exact hfollows

theorem Step.of_none {apart : Prop} (h : ¬ apart) : Step member e e₁ p apart none := by
  refine ⟨⟨fun hleft => absurd hleft.1 h, ?_⟩, fun _ _ r hr => by cases hr⟩
  rintro ⟨r, added, hr, -⟩
  cases hr

theorem see_of_ne {r : Role} {s : Name} (hr : r ≠ .declared) : see e r s = e := by
  cases r with
  | name => rfl
  | other => rfl
  | declared => exact absurd rfl hr

theorem occurrence_known (h : Wf e) {r : Role} {s : Name} {n : ℕ}
    (hr : (occurrence e r s).role ≠ .declared) (hn : (occurrence e r s).decl = some n) :
    ∃ q, e.decls[n]? = some (q, s) := by
  cases r with
  | name => exact find_some h hn
  | other => cases hn
  | declared => exact absurd rfl hr

theorem Step.congr {apart apart' : Prop} {result : Outcome} (h : Step member e e₁ p apart result)
    (hiff : apart' ↔ apart) : Step member e e₁ p apart' result := by
  rw [hiff]
  exact h

/-- An identifier for which no member is added. -/
theorem Step.of_ident (h : Follows e p) (hcanon : Canon member e) {r : Role} {s s' : Name}
    {apart : Prop}
    (hapart : apart ↔ r ≠ .declared ∧ Spelled member (occurrence e r s, s')) :
    Step member e (see e r s) p apart (some (p, [(occurrence e r s, s')])) := by
  by_cases hr : r = .declared
  · subst hr
    -- it has no member
    refine ⟨⟨fun hleft => absurd rfl (hapart.mp hleft.1).1, ?_⟩,
      fun ha => absurd rfl (hapart.mp ha).1⟩
    rintro ⟨q, added, hq, hmembers, hkept, -⟩
    obtain rfl := Option.some.inj hq
    obtain rfl : added = [] := List.self_eq_append_right.mp hmembers
    obtain ⟨m, hm, -⟩ := hkept.created e.decls.length le_rfl (by simp [see, Env.declare])
    cases hm
  · rw [see_of_ne hr]
    refine .of_still h hcanon rfl h ?_
    rw [hapart, List.forall_mem_singleton]
    exact and_iff_right hr

/-! ## A declaration -/

/-- One name is declared in these elements. -/
theorem bindExprs_one {zs : List (Expr Role)} {ss extra : List (Expr Occurrence)} {d : Occurrence}
    {x : Name} (h : (bindExprs zs e).2 = ss ++ .ident d x :: extra) (hd : d.role = .declared)
    (hno : ∀ o ∈ identsExprs (ss ++ extra), o.1.role ≠ .declared) :
    (bindExprs zs e).1 = e.declare x ∧ d = occurrence e .declared x := by
  obtain ⟨zs₁, zs₂, rfl, hss, hrest⟩ := bindExprs_split h
  rw [identsExprs_append] at hno
  have hstill₁ : (bindExprs zs₁ e).1 = e :=
    bindExprs_still (hss ▸ fun o ho => hno o (List.mem_append_left _ ho))
  rw [hstill₁] at hrest
  cases zs₂ with
  | nil => cases hrest
  | cons z zs₂ =>
      cases z with
      | leaf t v => cases hrest
      | node t parts => cases hrest
      | ident r v =>
          obtain ⟨hident, hextra⟩ := List.cons_eq_cons.mp hrest
          cases hident
          obtain rfl : r = .declared := hd
          subst hextra
          have hstill₂ : (bindExprs zs₂ (e.declare x)).1 = e.declare x :=
            bindExprs_still fun o ho => hno o (List.mem_append_right _ ho)
          refine ⟨?_, rfl⟩
          rw [bindExprs_append, hstill₁]
          exact hstill₂

/-- The member for a declaration, as the pass adds it. -/
def memberFor (p : LiftVardeclPass Occurrence) (o : Occurrence) (s : Name)
    (ss : List (Expr Occurrence)) (y : Expr Occurrence) (extra : List (Expr Occurrence)) :
    Member Occurrence :=
  ⟨y.sourceOr o, .ident o s :: ss, p.prefixText ++ y.text, extra⟩

/-- A variable is declared here that the block does not hold yet, and none is used. -/
def Alone (o : Occurrence) (ss : List (Expr Occurrence)) (y : Expr Occurrence)
    (extra : List (Expr Occurrence)) : Prop :=
  o.Outside ∧ (∃ d x, y = .ident d x ∧ d.role = .declared ∧ d.again = false) ∧
    ∀ o ∈ identsExprs (ss ++ extra), o.1.Outside

section Declaration

variable {r : Role} {s : Name} {zs : List (Expr Role)} {ss extra : List (Expr Occurrence)}
  {y : Expr Occurrence} {k : ℕ}

/-- A declaration that stands alone has a member. -/
theorem added_of_alone (h : Follows e p)
    (hz : (bindExprs zs (see e r s)).2 = ss ++ y :: extra)
    (hplain : ∀ d ∈ (bindExprs zs (see e r s)).1.decls, Plain d.2)
    (hextra : ∀ c ∈ (texts extra).flatten.head?, c = '[')
    (halone : Alone (occurrence e r s) ss y extra) :
    ∃ x, y = .ident (occurrence e .declared x) x ∧
      (bindExprs zs (see e r s)).1 = e.declare x ∧
      p.addMember y.text (memberFor p (occurrence e r s) s ss y extra) k =
        some (p.declare x (memberFor p (occurrence e r s) s ss y extra),
          [.ident (occurrence e .declared x) (memberName e.block.path x)], k) ∧
      Follows (e.declare x) (p.declare x (memberFor p (occurrence e r s) s ss y extra)) := by
  obtain ⟨⟨hr, -⟩, ⟨d, x, rfl, hd, hagain⟩, hrest⟩ := halone
  have hsee : see e r s = e := see_of_ne hr
  rw [hsee] at hz hplain ⊢
  obtain ⟨henv, rfl⟩ := bindExprs_one hz hd fun o ho => (hrest o ho).1
  have hx : Plain x := hplain (e.block.path, x) (by
    rw [henv]
    exact List.mem_append_right _ (List.mem_singleton_self _))
  have hname : (memberFor p (occurrence e r s) s ss (.ident (occurrence e .declared x) x)
      extra).name = memberName e.block.path x := h.prefixText x
  refine ⟨x, rfl, henv, ?_, h.declare hx hagain hname hextra⟩
  rw [LiftVardeclPass.addMember, if_neg (h.key_new hx hagain hname hextra), hname]
  rfl

theorem spelled_of_outside {o : Occurrence × Name} (hname : o.1.name = o.2)
    (hout : o.1.Outside) : Spelled member o := by
  rw [Spelled, hout.2]
  exact hname.symm

/-- Spelled as it was, an identifier is no local variable. -/
theorem decl_of_spelled {o : Occurrence × Name} (hcanon : Canon member e₁)
    (hknown : ∀ n, o.1.decl = some n → ∃ q, e₁.decls[n]? = some (q, o.2))
    (hspelled : Spelled member o) : o.1.decl = none := by
  cases hdecl : o.1.decl with
  | none => rfl
  | some n =>
      obtain ⟨q, hq⟩ := hknown n hdecl
      rw [Spelled, hdecl] at hspelled
      exact absurd (hspelled.trans (hcanon n _ hq)).symm (memberName_ne q o.2)

theorem see_declared_length : (see e .declared s).decls.length = e.decls.length + 1 :=
  List.length_append

/-- It is a name that is declared. -/
theorem ident_of_kept (h : Follows e p) (hs : s ∈ typeScope) {e₁ : Env Name}
    (hgrows : Grows (see e r s) e₁ names)
    (hkept : Kept member e.decls.length e₁.decls.length
      [(y.sourceOr (occurrence e r s), p.prefixText ++ y.text)]
      [memberFor p (occurrence e r s) s ss y extra]) :
    ∃ d x, y = .ident d x ∧ d.role = .declared := by
  have hrole := hkept.declared _ (List.mem_singleton_self _)
  have hno : y.sourceOr (occurrence e r s) ≠ occurrence e r s ∨ r ≠ .declared := by
    rw [or_iff_not_imp_right, not_not]
    rintro rfl
    -- the type itself would be declared, and a member would be named like it
    have hlen := hgrows.length_le
    rw [see_declared_length] at hlen
    obtain ⟨m, hm, hdecl, hname⟩ := hkept.created e.decls.length le_rfl hlen
    obtain rfl := List.mem_singleton.mp hm
    have hspelled : Spelled member (occurrence e .declared s, s) :=
      hkept.spelled _ (List.mem_append_right _ (List.mem_flatMap.mpr
        ⟨_, List.mem_singleton_self _, List.mem_cons_self⟩))
    have htype : s = memberName e.block.path y.text := by
      rw [← h.prefixText]
      exact hspelled.trans hname.symm
    exact absurd (htype ▸ hs) (memberName_not_type _ _)
  cases y with
  | ident d x => exact ⟨d, x, rfl, hrole⟩
  | leaf t v => exact absurd hrole (hno.resolve_left fun hne => hne rfl)
  | node t parts => exact absurd hrole (hno.resolve_left fun hne => hne rfl)

/-- No other name is declared. -/
theorem single_of_kept {d : Occurrence} {x : Name} (hd : d.role = .declared)
    (hz : (bindExprs zs (see e r s)).2 = ss ++ .ident d x :: extra)
    (hcreated : ∀ n, e.decls.length ≤ n → n < (bindExprs zs (see e r s)).1.decls.length →
      d.decl = some n) :
    r ≠ .declared ∧ ∀ o ∈ identsExprs (ss ++ extra), o.1.role ≠ .declared := by
  obtain ⟨zs₁, zs₂, rfl, rfl, hrest⟩ := bindExprs_split hz
  have hle := (bindExprs_grows zs₁ (see e r s)).length_le
  have hsee := (grows_see (e := e) r s).length_le
  rw [bindExprs_append] at hcreated
  cases zs₂ with
  | nil => cases hrest
  | cons z zs₂ =>
      cases z with
      | leaf t v => cases hrest
      | node t parts => cases hrest
      | ident r' v =>
          obtain ⟨hident, rfl⟩ := List.cons_eq_cons.mp hrest
          cases hident
          obtain rfl : r' = .declared := hd
          have hle₂ := (bindExprs_grows zs₂ (see (bindExprs zs₁ (see e r s)).1 .declared x)).length_le
          rw [see_declared_length] at hle₂
          -- the number of this declaration is the only one there is
          have honly : ∀ n, e.decls.length ≤ n →
              n < (bindExprs zs₂ (see (bindExprs zs₁ (see e r s)).1 .declared x)).1.decls.length →
              (bindExprs zs₁ (see e r s)).1.decls.length = n :=
            fun n hlo hhi => Option.some.inj (hcreated n hlo hhi)
          refine ⟨?_, fun o ho hrole => ?_⟩
          · rintro rfl
            rw [see_declared_length] at hle
            have heq := honly e.decls.length le_rfl (by omega)
            omega
          · rw [identsExprs_append] at ho
            rcases List.mem_append.mp ho with ho | ho
            · obtain ⟨n, -, hlo, hhi⟩ := bindExprs_declared _ _ o ho hrole
              have heq := honly n (by omega) (by omega)
              omega
            · obtain ⟨n, -, hlo, hhi⟩ := bindExprs_declared _ _ o ho hrole
              have heq := honly n (by rw [bindExpr, see_declared_length] at hlo; omega) hhi
              rw [bindExpr, see_declared_length] at hlo
              omega

/-- The other direction: what the one member says. -/
theorem alone_of_kept (h : Follows e p) (hcanon : Canon member e) (hs : s ∈ typeScope)
    (hz : (bindExprs zs (see e r s)).2 = ss ++ y :: extra)
    (hkept : Kept member e.decls.length (bindExprs zs (see e r s)).1.decls.length
      [(y.sourceOr (occurrence e r s), p.prefixText ++ y.text)]
      [memberFor p (occurrence e r s) s ss y extra])
    (hdistinct : Distinct member (bindExprs zs (see e r s)).1.decls.length) :
    Alone (occurrence e r s) ss y extra ∧ Canon member (bindExprs zs (see e r s)).1 := by
  obtain ⟨d, x, rfl, hd⟩ := ident_of_kept h hs (bindExprs_grows zs _) hkept
  have hcreated : ∀ n, e.decls.length ≤ n → n < (bindExprs zs (see e r s)).1.decls.length →
      d.decl = some n ∧ p.prefixText ++ x = member n := by
    intro n hlo hhi
    obtain ⟨m, hm, hdecl, hname⟩ := hkept.created n hlo hhi
    obtain rfl := List.mem_singleton.mp hm
    exact ⟨hdecl, hname⟩
  obtain ⟨hr, hno⟩ := single_of_kept hd hz fun n hlo hhi => (hcreated n hlo hhi).1
  have hsee : see e r s = e := see_of_ne hr
  rw [hsee] at hz hkept hdistinct hcreated ⊢
  have hknown := bindExprs_known zs e h.wf
  rw [hz] at hknown
  obtain ⟨henv, rfl⟩ := bindExprs_one hz hd hno
  rw [henv] at hknown hkept hdistinct hcreated ⊢
  have hlen : (e.declare x).decls.length = e.decls.length + 1 := List.length_append
  obtain ⟨-, hname⟩ := hcreated e.decls.length le_rfl (by omega)
  rw [h.prefixText] at hname
  have hcanon' : Canon member (e.declare x) := hcanon.declare hname.symm
  have hspelled : ∀ o ∈ identsExprs (.ident (occurrence e r s) s :: (ss ++ extra)),
      Spelled member o := fun o ho => hkept.spelled o (List.mem_append_right _
    (List.mem_flatMap.mpr ⟨_, List.mem_singleton_self _, ho⟩))
  have hagain : e.again x = false := by
    by_contra hne
    obtain ⟨n, hn⟩ := again_spec h.wf (Bool.not_eq_false _ ▸ hne)
    have hlt := (List.getElem?_eq_some_iff.mp hn).1
    have heq := hdistinct n (by omega) e.decls.length (by omega)
      ((hcanon n _ hn).trans hname)
    omega
  refine ⟨⟨⟨hr, ?_⟩, ⟨_, x, rfl, rfl, hagain⟩, fun o ho => ⟨hno o ho, ?_⟩⟩, hcanon'⟩
  · exact decl_of_spelled hcanon (fun n hn => occurrence_known h.wf hr hn)
      (hspelled _ List.mem_cons_self)
  · refine decl_of_spelled hcanon' (hknown o ?_).2 (hspelled o (List.mem_cons_of_mem _ ho))
    rw [identsExprs_append] at ho ⊢
    rcases List.mem_append.mp ho with ho | ho
    · exact List.mem_append_left _ ho
    · exact List.mem_append_right _ (List.mem_append_right _ ho)

/-- Where an identifier and those behind it are a declaration. -/
theorem Step.of_declaration (h : Follows e p) (hcanon : Canon member e) (hs : s ∈ typeScope)
    (hz : (bindExprs zs (see e r s)).2 = ss ++ y :: extra)
    (hplain : ∀ d ∈ (bindExprs zs (see e r s)).1.decls, Plain d.2)
    (hextra : ∀ c ∈ (texts extra).flatten.head?, c = '[') :
    Step member e (bindExprs zs (see e r s)).1 p (Alone (occurrence e r s) ss y extra)
      ((p.addMember y.text (memberFor p (occurrence e r s) s ss y extra) k).map
        fun r => (r.1, identsExprs r.2.1)) := by
  refine ⟨⟨?_, ?_⟩, fun halone _ q hq => ?_⟩
  · rintro ⟨halone, hcanon'⟩
    obtain ⟨x, rfl, henv, hadd, hfollows⟩ := added_of_alone (k := k) h hz hplain hextra halone
    have hknown := bindExprs_known zs (see e r s) ((grows_see r s).wf h.wf)
    rw [hz, henv] at hknown
    rw [henv] at hcanon' ⊢
    have hlen : (e.declare x).decls.length = e.decls.length + 1 := List.length_append
    have hname : member e.decls.length = memberName e.block.path x :=
      hcanon' e.decls.length _ List.getElem?_concat_length
    rw [hadd]
    refine ⟨_, [memberFor p (occurrence e r s) s ss _ extra], rfl, rfl, ⟨?_, ?_, ?_⟩,
      hfollows.distinct_of_canon hcanon'⟩
    · intro o ho
      rcases List.mem_cons.mp ho with rfl | ho
      · exact hname.symm
      · obtain ⟨m, hm, ho⟩ := List.mem_flatMap.mp ho
        obtain rfl := List.mem_singleton.mp hm
        rcases List.mem_cons.mp ho with rfl | ho
        · exact spelled_of_outside rfl halone.1
        · have hrest : o ∈ identsExprs (ss ++ extra) := ho
          refine spelled_of_outside (hknown o ?_).1 (halone.2.2 o hrest)
          rw [identsExprs_append] at hrest ⊢
          rcases List.mem_append.mp hrest with ho | ho
          · exact List.mem_append_left _ ho
          · exact List.mem_append_right _ (List.mem_append_right _ ho)
    · intro m hm
      rw [List.mem_singleton.mp hm]
      rfl
    · intro n hlo hhi
      obtain rfl : n = e.decls.length := by omega
      exact ⟨_, List.mem_singleton_self _, rfl, (h.prefixText x).trans hname.symm⟩
  · rintro ⟨q, added, hq, hmembers, hkept, hdistinct⟩
    obtain ⟨q', hq', rfl⟩ := Option.map_eq_some_iff.mp hq
    rw [LiftVardeclPass.addMember] at hq'
    split at hq'
    · cases hq'
    · obtain rfl := Option.some.inj hq'
      obtain rfl : added = [_] := (List.append_cancel_left hmembers).symm
      exact alone_of_kept h hcanon hs hz hkept hdistinct
  · obtain ⟨x, rfl, henv, hadd, hfollows⟩ := added_of_alone (k := k) h hz hplain hextra halone
    rw [hadd] at hq
    obtain rfl := Option.some.inj hq
    rw [henv]
    exact hfollows

end Declaration

/-! ## The head of a list -/

/-- The pass takes some of the elements behind the head, and keeps the binding of these and the
    head just if the head is apart. -/
def HeadStep (member : ℕ → Name) (first : Bool) (e : Env Name) (p : LiftVardeclPass Occurrence)
    (x : Expr Role) (fwd : List (Expr Role)) : Prop :=
  let ahead := (bindExprs fwd (bindExpr x e).1).2
  let result := visitExpr first ahead (bindExpr x e).2 p
  ∃ fwd₁ fwd₂, fwd = fwd₁ ++ fwd₂ ∧ popped first ahead (bindExpr x e).2 = fwd₁.length ∧
    (∀ r, result = some r → r.2.2 = fwd₁.length) ∧
    Step member e (bindExprs fwd₁ (bindExpr x e).1).1 p (ApartExpr first ahead (bindExpr x e).2)
      (result.map fun r => (r.1, identsExprs r.2.1))

section Head

variable {r : Role} {s : Name} {first : Bool} {fwd : List (Expr Role)}

theorem headStep_ident {ahead : List (Expr Occurrence)} {fwd₁ fwd₂ : List (Expr Role)}
    (hahead : ahead = (bindExprs fwd (see e r s)).2) (hfwd : fwd = fwd₁ ++ fwd₂)
    (hpopped : popped first ahead (.ident (occurrence e r s) s) = fwd₁.length)
    (hpops : ∀ q, p.before first (occurrence e r s) s ahead = some q → q.2.2 = fwd₁.length)
    (hstep : Step member e (bindExprs fwd₁ (see e r s)).1 p
      ((occurrence e r s).Fits ∧ (Taken first (occurrence e r s) s ahead →
        ∀ y ys, behindStars ahead = y :: ys → Declares (stars ahead) y ys))
      ((p.before first (occurrence e r s) s ahead).map fun q => (q.1, identsExprs q.2.1))) :
    HeadStep member first e p (.ident r s) fwd := by
  subst hahead
  exact ⟨fwd₁, fwd₂, hfwd, hpopped, hpops, hstep⟩

theorem decl_of_near_none (hr : r ≠ .declared) (hs : e.near s = none) :
    (occurrence e r s).decl = none := by
  cases r with
  | name => exact find_eq_none hs
  | other => rfl
  | declared => exact absurd rfl hr

theorem fits_iff_of_none (hr : r ≠ .declared) (hs : e.near s = none) :
    (occurrence e r s).near = (occurrence e r s).decl ↔ Spelled member (occurrence e r s, s) := by
  have hdecl : (occurrence e r s).decl = none := decl_of_near_none hr hs
  rw [Spelled, hdecl]
  exact ⟨fun _ => rfl, fun _ => hs⟩

/-- A name that a block holds becomes the member's, which has to be the right one. -/
theorem headStep_held (h : Follows e p) (hcanon : Canon member e) {k : ℕ}
    (hs : e.near s = some k) : HeadStep member first e p (.ident r s) fwd := by
  obtain ⟨ahead, hahead⟩ : ∃ ahead, ahead = (bindExprs fwd (see e r s)).2 := ⟨_, rfl⟩
  obtain ⟨q, hget, hbefore⟩ : ∃ q, e.decls[k]? = some (q, s) ∧
      p.before first (occurrence e r s) s ahead =
        some (p, [.ident (occurrence e r s) (memberName q s)], 0) := h.before_some hs
  have huntaken : ¬ Taken first (occurrence e r s) s ahead := by
    rintro ⟨-, -, hnear, -⟩
    cases hs.symm.trans hnear
  refine headStep_ident hahead (List.nil_append _).symm (if_neg huntaken) (fun r' hr' => ?_) ?_
  · obtain rfl := Option.some.inj (hbefore.symm.trans hr')
    rfl
  · rw [hbefore, and_iff_left fun htaken => absurd htaken huntaken]
    refine .of_ident h hcanon (and_congr_right fun hr => ?_)
    rw [Spelled, show (occurrence e r s).near = some k from hs]
    cases hdecl : (occurrence e r s).decl with
    | none => exact ⟨fun hsome => (by cases hsome), fun heq => absurd heq (memberName_ne q s)⟩
    | some n =>
        obtain ⟨q', hq'⟩ := occurrence_known h.wf hr hdecl
        have hmember : member k = memberName q s := hcanon k _ hget
        show some k = some n ↔ memberName q s = member n
        rw [← hmember]
        refine ⟨fun heq => congrArg member (Option.some.inj heq), fun heq => congrArg some ?_⟩
        exact h.distinct_of_canon hcanon k (List.getElem?_eq_some_iff.mp hget).1 n
          (List.getElem?_eq_some_iff.mp hq').1 heq

/-- A name that no block holds stays, where no declaration begins. -/
theorem headStep_kept (h : Follows e p) (hcanon : Canon member e) (hs : e.near s = none)
    (hno : ¬ (first = true ∧ s ∈ typeScope ∧ smells (bindExprs fwd (see e r s)).2 = true)) :
    HeadStep member first e p (.ident r s) fwd := by
  obtain ⟨ahead, hahead⟩ : ∃ ahead, ahead = (bindExprs fwd (see e r s)).2 := ⟨_, rfl⟩
  rw [← hahead] at hno
  have hbefore : p.before first (occurrence e r s) s ahead =
      some (p, [.ident (occurrence e r s) s], 0) := h.before_keep hs hno
  have huntaken : ¬ Taken first (occurrence e r s) s ahead :=
    fun ht => hno ⟨ht.1, ht.2.1, ht.2.2.2⟩
  refine headStep_ident hahead (List.nil_append _).symm (if_neg huntaken) (fun r' hr' => ?_) ?_
  · obtain rfl := Option.some.inj (hbefore.symm.trans hr')
    rfl
  · rw [hbefore, and_iff_left fun htaken => absurd htaken huntaken]
    refine .of_ident h hcanon (and_congr_right fun hr => ?_)
    exact fits_iff_of_none hr hs

theorem isLeaf_text {A : Type} {x : Expr A} {v : Name} (hv : v ≠ []) (h : x.isLeaf v = true) :
    x.text = v := by
  cases x with
  | leaf t w => exact beq_iff_eq.mp h
  | ident a w => exact beq_iff_eq.mp h
  | node t parts =>
      rw [Expr.isLeaf, Bool.and_eq_true, List.isEmpty_iff (l := v)] at h
      exact absurd h.2 hv

/-- Bounds begin with their bracket. -/
theorem nameExtra_bracket {A : Type} {ys extra : List (Expr A)} (h : nameExtra ys = some extra) :
    ∀ c ∈ (texts extra).flatten.head?, c = '[' := by
  intro c hc
  cases ys with
  | nil =>
      obtain rfl := Option.some.inj h
      cases hc
  | cons x xs =>
      rw [nameExtra] at h
      split at h
      · cases h
      · split at h
        · rename_i hbracket
          have htext : x.text = ['['] := isLeaf_text (List.cons_ne_nil _ _) hbracket
          have hhead : ∃ more, extra = x :: more := by
            rw [closing] at h
            split at h
            · exact ⟨_, (Option.some.inj h).symm⟩
            · obtain ⟨more, -, rfl⟩ := Option.map_eq_some_iff.mp h
              exact ⟨_, rfl⟩
          obtain ⟨more, rfl⟩ := hhead
          rw [texts, htext] at hc
          exact (Option.some.inj hc).symm
        · obtain rfl := Option.some.inj h
          cases hc

/-- A star is no name that is declared. -/
theorem stars_idents {A : Type} (fwd : List (Expr A)) :
    ∀ o ∈ identsExprs (stars fwd), o.2 = ['*'] := by
  induction fwd with
  | nil => intro o ho; cases ho
  | cons x fwd ih =>
      intro o ho
      rw [stars, List.takeWhile_cons] at ho
      split at ho
      · rename_i hstar
        rcases List.mem_append.mp ho with ho | ho
        · cases x with
          | leaf t v => cases ho
          | ident a v =>
              rw [List.mem_singleton.mp ho]
              exact isLeaf_text (List.cons_ne_nil _ _) hstar
          | node t parts =>
              rw [Expr.isStar, Expr.isLeaf, Bool.and_eq_true] at hstar
              cases hstar.2
        · exact ih o ho
      · cases ho

/-- Where a declaration seems to begin, but nothing follows the stars. -/
theorem headStep_stars (h : Follows e p) (hcanon : Canon member e) (hs : e.near s = none)
    (hif : first = true ∧ s ∈ typeScope ∧ smells (bindExprs fwd (see e r s)).2 = true)
    (hplain : ∀ d ∈ (bindExprs fwd (see e r s)).1.decls, Plain d.2)
    (hbehind : behindStars (bindExprs fwd (see e r s)).2 = []) :
    HeadStep member first e p (.ident r s) fwd := by
  have hknown := bindExprs_known fwd (see e r s) ((grows_see r s).wf h.wf)
  have hdeclared := bindExprs_declared fwd (see e r s)
  have hstill := @bindExprs_still fwd (see e r s)
  have hlength : (bindExprs fwd (see e r s)).2.length = fwd.length := bindExprs_length fwd _
  obtain ⟨ahead, hahead⟩ : ∃ ahead, ahead = (bindExprs fwd (see e r s)).2 := ⟨_, rfl⟩
  rw [← hahead] at hif hbehind hknown hdeclared hstill hlength
  have hall : stars ahead = ahead := by
    rw [← List.append_nil (stars ahead), ← hbehind, stars_append]
  have htaken : Taken first (occurrence e r s) s ahead := ⟨hif.1, hif.2.1, hs, hif.2.2⟩
  have hbefore := h.before_type (a := occurrence e r s) hs hif
  rw [hbehind] at hbefore
  have henv : (bindExprs fwd (see e r s)).1 = see e r s := hstill fun o ho hrole => by
    obtain ⟨n, hn, -⟩ := hdeclared o ho hrole
    obtain ⟨q, hq⟩ := (hknown o ho).2 n hn
    have hstar := hplain _ (List.mem_of_getElem? hq)
    have hname : o.2 = ['*'] := stars_idents ahead o (by rwa [hall])
    rw [hname] at hstar
    exact absurd (hstar.1 '*' List.mem_cons_self) (by decide)
  refine headStep_ident hahead (List.append_nil fwd).symm ?_ (fun q hq => ?_) ?_
  · rw [popped, if_pos htaken, hbehind, hall]
    exact hlength
  · rw [hbefore] at hq
    obtain rfl := Option.some.inj hq
    rw [hall]
    exact hlength
  · rw [hbefore, henv]
    have hidents : ∀ n, identsExprs (List.replicate n (.node .chain [.leaf .op ['*']]) :
        List (Expr Occurrence)) = [] := by
      intro n
      induction n with
      | zero => rfl
      | succ n ih => exact ih
    rw [Option.map_some, identsExprs, hidents]
    refine .of_ident h hcanon ?_
    rw [and_iff_left fun _ y ys hne => by cases hbehind.symm.trans hne]
    exact and_congr_right fun hr => fits_iff_of_none hr hs

theorem Grows.plain (h : Grows e e₁ names) (hplain : ∀ d ∈ e₁.decls, Plain d.2) :
    ∀ d ∈ e.decls, Plain d.2 := by
  obtain ⟨new, hnew, -⟩ := h.decls
  exact fun d hd => hplain d (hnew ▸ List.mem_append_left _ hd)

/-- What is asked of a declaration, when one begins. -/
theorem Taken.declares_iff {o : Occurrence} {ahead : List (Expr Occurrence)}
    {y : Expr Occurrence} {ys : List (Expr Occurrence)} (htaken : Taken first o s ahead)
    (hbehind : behindStars ahead = y :: ys) :
    (Taken first o s ahead →
      ∀ y ys, behindStars ahead = y :: ys → Declares (stars ahead) y ys) ↔
      Declares (stars ahead) y ys := by
  refine ⟨fun hall => hall htaken y ys hbehind, fun hdeclares _ y' ys' heq => ?_⟩
  obtain ⟨rfl, rfl⟩ := List.cons_eq_cons.mp (hbehind.symm.trans heq)
  exact hdeclares

/-- The bounds of the declared name. -/
theorem declares_extra {ss ys extra : List (Expr Occurrence)} {y : Expr Occurrence}
    (hextra : nameExtra ys = some extra) :
    Declares ss y ys ↔ (∃ d x, y = .ident d x ∧ d.role = .declared ∧ d.again = false) ∧
      ∀ o ∈ identsExprs (ss ++ extra), o.1.Outside := by
  refine and_congr_right fun _ => ⟨?_, fun hout => ⟨extra, hextra, hout⟩⟩
  rintro ⟨extra', hextra', hout⟩
  obtain rfl := Option.some.inj (hextra.symm.trans hextra')
  exact hout

/-- Where a declaration begins. -/
theorem headStep_taken (h : Follows e p) (hcanon : Canon member e) (hs : e.near s = none)
    (hif : first = true ∧ s ∈ typeScope ∧ smells (bindExprs fwd (see e r s)).2 = true)
    (hplain : ∀ d ∈ (bindExprs fwd (see e r s)).1.decls, Plain d.2)
    {y : Expr Occurrence} {ys : List (Expr Occurrence)}
    (hbehind : behindStars (bindExprs fwd (see e r s)).2 = y :: ys) :
    HeadStep member first e p (.ident r s) fwd := by
  obtain ⟨ahead, hahead⟩ : ∃ ahead, ahead = (bindExprs fwd (see e r s)).2 := ⟨_, rfl⟩
  rw [← hahead] at hif hbehind
  have htaken : Taken first (occurrence e r s) s ahead := ⟨hif.1, hif.2.1, hs, hif.2.2⟩
  have hparts : stars ahead ++ y :: ys = ahead := hbehind ▸ stars_append ahead
  have hbefore : p.before first (occurrence e r s) s ahead = (nameExtra ys).bind fun extra =>
      p.addMember y.text (memberFor p (occurrence e r s) s (stars ahead) y extra)
        ((stars ahead).length + 1 + extra.length) := by
    have htype := h.before_type (a := occurrence e r s) hs hif
    rw [hbehind] at htype
    exact htype
  have hpopped : popped first ahead (.ident (occurrence e r s) s) =
      (stars ahead).length + 1 + ((nameExtra ys).getD []).length := by
    rw [popped, if_pos htaken, hbehind]
  have hapart := htaken.declares_iff hbehind
  cases hextra : nameExtra ys with
  | none =>
      rw [hextra] at hpopped hbefore
      have hsplit : (bindExprs fwd (see e r s)).2 = (stars ahead ++ [y]) ++ ys := by
        rw [← hahead, List.append_assoc]
        exact hparts.symm
      obtain ⟨fwd₁, fwd₂, hfwd, hfwd₁, -⟩ := bindExprs_split hsplit
      have hlength := congrArg List.length hfwd₁
      rw [bindExprs_length, List.length_append] at hlength
      refine headStep_ident hahead hfwd (hpopped.trans hlength.symm) (fun q hq => ?_) ?_
      · cases hbefore.symm.trans hq
      · rw [hbefore]
        refine .of_none fun hleft => ?_
        obtain ⟨-, extra, hsome, -⟩ := hapart.mp hleft.2
        cases hextra.symm.trans hsome
  | some extra =>
      rw [hextra] at hpopped hbefore
      obtain ⟨rest, rfl⟩ := nameExtra_take hextra
      have hsplit : (bindExprs fwd (see e r s)).2 = (stars ahead ++ y :: extra) ++ rest := by
        rw [← hahead, List.append_assoc]
        exact hparts.symm
      obtain ⟨fwd₁, fwd₂, rfl, hfwd₁, -⟩ := bindExprs_split hsplit
      have hlength := congrArg List.length hfwd₁
      rw [bindExprs_length, List.length_append, List.length_cons, ← Nat.add_assoc,
        Nat.add_right_comm] at hlength
      have hgrows := bindExprs_grows fwd₂ (bindExprs fwd₁ (see e r s)).1
      rw [bindExprs_append] at hplain
      refine headStep_ident hahead rfl (hpopped.trans hlength.symm) (fun q hq => ?_) ?_
      · rw [hbefore, Option.bind_some, LiftVardeclPass.addMember] at hq
        split at hq
        · cases hq
        · obtain rfl := Option.some.inj hq
          exact hlength.symm
      · rw [hbefore]
        refine (Step.of_declaration h hcanon hif.2.1 hfwd₁ (hgrows.plain hplain)
          (nameExtra_bracket hextra)).congr ?_
        rw [hapart, declares_extra hextra, Alone]
        refine and_congr_left fun _ => and_congr_right fun hr => ?_
        have hdecl : (occurrence e r s).decl = none := decl_of_near_none hr hs
        rw [hdecl]
        exact ⟨fun _ => rfl, fun _ => hs⟩

end Head

/-! ## Lists, statements and bodies -/

theorem AddedFor.adds {q : LiftVardeclPass Occurrence} {sources : List (Occurrence × Name)}
    (h : AddedFor p q sources) (hnumbers : ∀ o ∈ sources, o.1.role = .declared →
      ∃ n, o.1.decl = some n ∧ lo ≤ n ∧ n < hi) :
    ∃ added, q.members = p.members ++ added ∧ ∀ m ∈ added, m.source.role = .declared →
      ∃ n, m.source.decl = some n ∧ lo ≤ n ∧ n < hi := by
  obtain ⟨added, hadded, hsources⟩ := h
  refine ⟨added, hadded, fun m hm hrole => ?_⟩
  obtain ⟨s, hs⟩ := hsources m hm
  exact hnumbers _ hs hrole

theorem Step.refl (h : Follows e p) (hcanon : Canon member e) :
    Step member e e p True (some (p, [])) :=
  .of_still h hcanon rfl h ⟨fun _ o ho => (by cases ho), fun _ => trivial⟩

theorem visit_node {first : Bool} {ahead parts : List (Expr Occurrence)} {t : NodeType} :
    (visitExpr first ahead (.node t parts) p).map (fun r => (r.1, identsExprs r.2.1)) =
      (visitRest parts p true 0).map fun r => (r.1, identsExprs r.2) := by
  rw [visitExpr, visitExprs_eq, Option.map_map, Option.map_map]
  refine congrArg (Option.map · _) (funext fun r => ?_)
  exact congrArg (r.1, ·) (List.append_nil _)

/-- The pass over a list is the pass over its head, and then over what is left. -/
theorem visitRest_cons {first : Bool} {ahead : List (Expr Occurrence)} {x : Expr Occurrence}
    {k : ℕ} (hpops : ∀ r, visitExpr first ahead x p = some r → r.2.2 = k) :
    (visitRest (x :: ahead) p first 0).map (fun r => (r.1, identsExprs r.2)) =
      PbLiftVardecl.andThen ((visitExpr first ahead x p).map fun r => (r.1, identsExprs r.2.1))
        fun q => (visitRest ahead q false k).map fun r => (r.1, identsExprs r.2) := by
  rw [visitRest, PbLiftVardecl.andThen, Option.map_bind, Option.bind_map]
  refine Option.bind_congr fun r hr => ?_
  rw [Function.comp_apply, Function.comp_apply, hpops r hr, Option.map_map, Option.map_map]
  refine congrArg (Option.map · _) (funext fun q => ?_)
  exact congrArg (q.1, ·) (identsExprs_append _ _)

mutual

theorem headStep : ∀ (x : Expr Role) (first : Bool) (fwd : List (Expr Role)) (e : Env Name)
    (p : LiftVardeclPass Occurrence), Follows e p → Canon member e →
      (∀ d ∈ (bindExprs fwd (bindExpr x e).1).1.decls, Plain d.2) →
        HeadStep member first e p x fwd
  | .leaf _ _, _, fwd, _, _, h, hcanon, _ => by
      refine ⟨[], fwd, rfl, rfl, fun r hr => ?_, .refl h hcanon⟩
      obtain rfl := Option.some.inj hr
      rfl
  | .ident r s, first, fwd, e, _, h, hcanon, hplain => by
      cases hs : e.near s with
      | some k => exact headStep_held h hcanon hs
      | none =>
          by_cases hif : first = true ∧ s ∈ typeScope ∧
              smells (bindExprs fwd (see e r s)).2 = true
          · cases hbehind : behindStars (bindExprs fwd (see e r s)).2 with
            | nil => exact headStep_stars h hcanon hs hif hplain hbehind
            | cons y ys => exact headStep_taken h hcanon hs hif hplain hbehind
          · exact headStep_kept h hcanon hs hif
  | .node t parts, _, fwd, e, p, h, hcanon, hplain => by
      have hstep := listStep parts e true 0 p h hcanon ((bindExprs_grows fwd _).plain hplain)
      refine ⟨[], fwd, rfl, rfl, fun r hr => ?_, ?_⟩
      · obtain ⟨q, -, rfl⟩ := Option.map_eq_some_iff.mp hr
        rfl
      · rw [← visit_node] at hstep
        exact hstep

theorem listStep : ∀ (xs : List (Expr Role)) (e : Env Name) (first : Bool) (k : ℕ)
    (p : LiftVardeclPass Occurrence), Follows (bindExprs (xs.take k) e).1 p →
      Canon member (bindExprs (xs.take k) e).1 →
      (∀ d ∈ (bindExprs xs e).1.decls, Plain d.2) →
        Step member (bindExprs (xs.take k) e).1 (bindExprs xs e).1 p
          (ApartExprs (bindExprs xs e).2 first k)
          ((visitRest (bindExprs xs e).2 p first k).map fun r => (r.1, identsExprs r.2))
  | [], _, _, 0, _, h, hcanon, _ => .refl h hcanon
  | [], _, _, _ + 1, _, h, hcanon, _ => .refl h hcanon
  | x :: xs, e, first, k + 1, p, h, hcanon, hplain =>
      listStep xs (bindExpr x e).1 first k p h hcanon hplain
  | x :: xs, e, first, 0, p, h, hcanon, hplain => by
      obtain ⟨fwd₁, fwd₂, rfl, hpopped, hpops, hstep⟩ := headStep x first xs e p h hcanon hplain
      obtain ⟨ahead, hahead⟩ : ∃ ahead, ahead = (bindExprs (fwd₁ ++ fwd₂) (bindExpr x e).1).2 :=
        ⟨_, rfl⟩
      have htake : (fwd₁ ++ fwd₂).take fwd₁.length = fwd₁ := List.take_left
      have happend := bindExprs_append fwd₁ fwd₂ (bindExpr x e).1
      have hlength := bindExprs_length fwd₁ (bindExpr x e).1
      have htail := fun q => listStep (fwd₁ ++ fwd₂) (bindExpr x e).1 false fwd₁.length q
      rw [← hahead] at hpopped hpops hstep htail
      rw [htake] at htail
      have hapart : ApartExprs ((bindExpr x e).2 :: ahead) first 0 =
          (ApartExpr first ahead (bindExpr x e).2 ∧ ApartExprs ahead false fwd₁.length) := by
        rw [ApartExprs, hpopped]
      have hbound : bindExprs (x :: (fwd₁ ++ fwd₂)) e =
          ((bindExprs (fwd₁ ++ fwd₂) (bindExpr x e).1).1, (bindExpr x e).2 :: ahead) := by
        rw [bindExprs, hahead]
      rw [hbound, hapart, visitRest_cons hpops]
      have hahead' : ahead = (bindExprs fwd₁ (bindExpr x e).1).2 ++
          (bindExprs fwd₂ (bindExprs fwd₁ (bindExpr x e).1).1).2 := by rw [hahead, happend]
      have hgrows₁ := (bindExpr_grows x e).trans (bindExprs_grows fwd₁ (bindExpr x e).1)
      have hgrows₂ := bindExprs_grows fwd₂ (bindExprs fwd₁ (bindExpr x e).1).1
      rw [happend] at htail ⊢
      refine Step.andThen hgrows₁ hgrows₂ (fun r hr => ?_) (fun q r hr => ?_) hstep
        fun q h hcanon => htail q h hcanon ?_
      · obtain ⟨r', hr', rfl⟩ := Option.map_eq_some_iff.mp hr
        have hadded := visitExpr_added _ _ _ _ _ hr'
        rw [hpops r' hr', hahead', ← hlength, List.take_left] at hadded
        exact hadded.adds (bindExprs_declared (x :: fwd₁) e)
      · obtain ⟨r', hr', rfl⟩ := Option.map_eq_some_iff.mp hr
        have hadded := visitRest_added _ _ _ _ _ hr'
        rw [hahead', ← hlength, List.drop_left] at hadded
        exact hadded.adds (bindExprs_declared fwd₂ _)
      · rw [bindExprs, happend] at hplain
        exact hplain

end

/-- What is declared in a block, where a layer is pushed for it. -/
theorem Step.block (h : Step member e.openBlock e₁ p.pushScope a₁ r₁) (houter : e₁.outer ≠ []) :
    Step member e e₁.closeBlock p a₁ (r₁.map fun q => (q.1.popScope, q.2)) := by
  have hdecls := closeBlock_decls e₁
  have hcanon : Canon member e₁.closeBlock ↔ Canon member e₁ := by rw [Canon, Canon, hdecls]
  refine ⟨?_, fun ha hc q hq => ?_⟩
  · rw [hcanon, h.kept_iff, hdecls]
    constructor
    · rintro ⟨q, added, rfl, hmembers, hkept⟩
      exact ⟨_, added, rfl, hmembers, hkept⟩
    · rintro ⟨q, added, hq, hmembers, hkept⟩
      obtain ⟨q', rfl, rfl⟩ := Option.map_eq_some_iff.mp hq
      exact ⟨q', added, rfl, hmembers, hkept⟩
  · obtain ⟨q', rfl, rfl⟩ := Option.map_eq_some_iff.mp hq
    exact (h.follows ha (hcanon.mp hc) q' rfl).closeBlock houter

/-- What is declared in a scope. -/
theorem Step.scope (h : Step member e.openScope e₁ p a₁ r₁) :
    Step member e e₁.closeScope p a₁ r₁ :=
  ⟨h.kept_iff, fun ha hc q hq => (h.follows ha hc q hq).closeScope⟩

/-- Text that the pass leaves. -/
theorem rawStep (src : List (Expr Role)) (h : Follows e p) (hcanon : Canon member e) :
    Step member e (bindExprs src e).1 p (∀ o ∈ identsExprs (bindExprs src e).2, o.1.Outside)
      (some (p, identsExprs (bindExprs src e).2)) := by
  have hknown := bindExprs_known src e h.wf
  by_cases hno : ∀ o ∈ identsExprs (bindExprs src e).2, o.1.role ≠ .declared
  · have hstill : (bindExprs src e).1 = e := bindExprs_still hno
    rw [hstill] at hknown ⊢
    refine .of_still h hcanon rfl h (forall₂_congr fun o ho => ?_)
    exact ⟨spelled_of_outside (hknown o ho).1,
      fun hspelled => ⟨hno o ho, decl_of_spelled hcanon (hknown o ho).2 hspelled⟩⟩
  · -- no member is added for what is declared there
    have hfalse : ¬ ∀ o ∈ identsExprs (bindExprs src e).2, o.1.Outside :=
      fun hall => hno fun o ho => (hall o ho).1
    refine ⟨⟨fun hleft => absurd hleft.1 hfalse, ?_⟩, fun ha => absurd ha hfalse⟩
    rintro ⟨q, added, hq, hmembers, hkept, -⟩
    obtain rfl := Option.some.inj hq
    obtain rfl : added = [] := List.self_eq_append_right.mp hmembers
    push Not at hno
    obtain ⟨o, ho, hrole⟩ := hno
    obtain ⟨n, -, hlo, hhi⟩ := bindExprs_declared src e o ho hrole
    obtain ⟨m, hm, -⟩ := hkept.created n hlo hhi
    cases hm

theorem exprsStep (es : List (Expr Role)) (h : Follows e p) (hcanon : Canon member e)
    (hplain : ∀ d ∈ (bindExprs es e).1.decls, Plain d.2) :
    Step member e (bindExprs es e).1 p (ApartExprs (bindExprs es e).2 true 0)
      ((visitExprs (bindExprs es e).2 p [] 0).map fun r => (r.1, identsExprs r.2)) := by
  have hstep := listStep es e true 0 p h hcanon hplain
  rw [visitExprs_eq, Option.map_map]
  exact hstep

/-- Visiting one thing and then another, as the identifiers that are left. -/
theorem andThen_idents {B C D : Type} (o : Option (LiftVardeclPass Occurrence × B))
    (f : LiftVardeclPass Occurrence → Option (LiftVardeclPass Occurrence × C)) (c : B → C → D)
    (inD : D → List (Occurrence × Name)) {inB : B → List (Occurrence × Name)}
    {inC : C → List (Occurrence × Name)} (hc : ∀ x y, inD (c x y) = inB x ++ inC y) :
    (o.bind fun r => (f r.1).map fun q => (q.1, c r.2 q.2)).map (fun r => (r.1, inD r.2)) =
      PbLiftVardecl.andThen (o.map fun r => (r.1, inB r.2))
        fun q => (f q).map fun r => (r.1, inC r.2) := by
  rw [PbLiftVardecl.andThen, Option.map_bind, Option.bind_map]
  refine Option.bind_congr fun r _ => ?_
  rw [Function.comp_apply, Function.comp_apply, Option.map_map, Option.map_map]
  exact congrArg (Option.map · _) (funext fun q => congrArg (q.1, ·) (hc r.2 q.2))

theorem exprs_adds (es : List (Expr Role)) : Adds e.decls.length (bindExprs es e).1.decls.length p
    ((visitExprs (bindExprs es e).2 p [] 0).map fun r => (r.1, identsExprs r.2)) := by
  intro r hr
  rw [visitExprs_eq, Option.map_map] at hr
  obtain ⟨q, hq, rfl⟩ := Option.map_eq_some_iff.mp hr
  exact (visitRest_added _ p true 0 q hq).adds (bindExprs_declared es e)

theorem stmts_adds {ss : List (Stmt Occurrence)}
    (h : ∀ o ∈ identsStmts ss, o.1.role = .declared → ∃ n, o.1.decl = some n ∧ lo ≤ n ∧ n < hi) :
    Adds lo hi p ((visitStmts ss p).map fun r => (r.1, identsStmts r.2)) := by
  intro r hr
  obtain ⟨q, hq, rfl⟩ := Option.map_eq_some_iff.mp hr
  exact (visitStmts_added ss p q hq).adds h

theorem stmt_adds {s : Stmt Occurrence}
    (h : ∀ o ∈ s.idents, o.1.role = .declared → ∃ n, o.1.decl = some n ∧ lo ≤ n ∧ n < hi) :
    Adds lo hi p ((visitStmt s p).map fun r => (r.1, r.2.idents)) := by
  intro r hr
  obtain ⟨q, hq, rfl⟩ := Option.map_eq_some_iff.mp hr
  exact (visitStmt_added s p q hq).adds h

mutual

theorem stmtStep : ∀ (s : Stmt Role) (e : Env Name) (p : LiftVardeclPass Occurrence),
    Follows e p → Canon member e → (∀ d ∈ (bindStmt s e).1.decls, Plain d.2) →
      Step member e (bindStmt s e).1 p (ApartStmt (bindStmt s e).2)
        ((visitStmt (bindStmt s e).2 p).map fun r => (r.1, r.2.idents))
  | .basic es, e, p, h, hcanon, hplain => by
      have hstep := exprsStep es h hcanon hplain
      rw [bindStmt, visitStmt, Option.map_map]
      exact hstep
  | .block ss, e, p, h, hcanon, hplain => by
      have hstep := stmtsStep ss e.openBlock p.pushScope h.openBlock hcanon
        (by rwa [bindStmt, closeBlock_decls] at hplain)
      have hblock := hstep.block (bindStmts_grows ss e.openBlock).outer_ne_nil
      rw [Option.map_map] at hblock
      rw [bindStmt, visitStmt, Option.map_map]
      exact hblock
  | .control t es parts, e, p, h, hcanon, hplain => by
      have hgrows₁ := bindExprs_grows es e.openScope
      have hgrows₂ := bindParts_grows parts (bindExprs es e.openScope).1
      have hexprs := exprsStep es h.openScope hcanon (hgrows₂.plain hplain)
      have hboth := hexprs.andThen hgrows₁ hgrows₂ (exprs_adds es)
        (fun q => stmts_adds (bindParts_declared parts _))
        fun q hq hcanon' => partsStep parts (bindExprs es e.openScope).1 q hq hcanon' hplain
      rw [← andThen_idents _ _ (Stmt.control t) Stmt.idents fun _ _ => rfl] at hboth
      rw [bindStmt, visitStmt]
      exact hboth.scope
  | .raw src, e, p, h, hcanon, hplain => rawStep src h hcanon

theorem stmtsStep : ∀ (ss : List (Stmt Role)) (e : Env Name) (p : LiftVardeclPass Occurrence),
    Follows e p → Canon member e → (∀ d ∈ (bindStmts ss e).1.decls, Plain d.2) →
      Step member e (bindStmts ss e).1 p (ApartStmts (bindStmts ss e).2)
        ((visitStmts (bindStmts ss e).2 p).map fun r => (r.1, identsStmts r.2))
  | [], _, _, h, hcanon, _ => .refl h hcanon
  | s :: ss, e, p, h, hcanon, hplain => by
      have hgrows₁ := bindStmt_grows s e
      have hgrows₂ := bindStmts_grows ss (bindStmt s e).1
      have hboth := (stmtStep s e p h hcanon (hgrows₂.plain hplain)).andThen hgrows₁ hgrows₂
        (stmt_adds (bindStmt_declared s e)) (fun q => stmts_adds (bindStmts_declared ss _))
        fun q hq hcanon' => stmtsStep ss (bindStmt s e).1 q hq hcanon' hplain
      rw [← andThen_idents _ _ List.cons identsStmts fun _ _ => rfl] at hboth
      rw [bindStmts, visitStmts]
      exact hboth

theorem partsStep : ∀ (ss : List (Stmt Role)) (e : Env Name) (p : LiftVardeclPass Occurrence),
    Follows e p → Canon member e → (∀ d ∈ (bindParts ss e).1.decls, Plain d.2) →
      Step member e (bindParts ss e).1 p (ApartStmts (bindParts ss e).2)
        ((visitStmts (bindParts ss e).2 p).map fun r => (r.1, identsStmts r.2))
  | [], _, _, h, hcanon, _ => .refl h hcanon
  | s :: ss, e, p, h, hcanon, hplain => by
      have hgrows₁ := bindStmt_grows s e.openScope
      have hgrows₁' := (grows_openScope.trans hgrows₁).trans grows_closeScope
      have hgrows₂ := bindParts_grows ss (bindStmt s e.openScope).1.closeScope
      have hfirst := stmtStep s e.openScope p h.openScope hcanon (hgrows₂.plain hplain)
      have hboth := hfirst.scope.andThen hgrows₁' hgrows₂
        (stmt_adds (bindStmt_declared s e.openScope))
        (fun q => stmts_adds (bindParts_declared ss _))
        fun q hq hcanon' => partsStep ss _ q hq hcanon' hplain
      rw [← andThen_idents _ _ List.cons identsStmts fun _ _ => rfl] at hboth
      rw [bindParts, visitStmts]
      exact hboth

end

end Steps

/-! ## The whole body -/

/-- The member that the block and the name of a declaration give. -/
def canonical (e : Env Name) (n : ℕ) : Name :=
  (e.decls[n]?.map fun d => memberName d.1 d.2).getD []

theorem canon_canonical (e : Env Name) : Canon (canonical e) e := by
  intro n d hn
  rw [canonical, hn]
  rfl

/-- **WHEN THE BINDING IS KEPT**: just if each identifier stands for what the blocks around hold
    under its name, each declaration begins an expression list with a type, and stands alone. -/
theorem lifted_right_iff (body : List (Stmt Role))
    (hplain : ∀ x ∈ declaredNames (identsStmts body), Plain x) :
    Right body ↔ ApartStmts (bound body) := by
  obtain ⟨new, hnew, hnames⟩ := (bindStmts_grows body Env.start).decls
  have hdecls : ∀ d ∈ (bindStmts body Env.start).1.decls, Plain d.2 := by
    intro d hd
    rw [hnew] at hd
    exact hplain _ (hnames ▸ List.mem_map_of_mem hd)
  have hstep := fun member => @stmtsStep member body Env.start .start follows_start
    (fun n d hn => by cases hn) hdecls
  constructor
  · rintro ⟨out, members, hrun, member, hspelled, hdeclared, hcreated, hdistinct⟩
    obtain ⟨r, hr, hout⟩ := Option.map_eq_some_iff.mp hrun
    refine ((hstep member).kept_iff.mpr ⟨(r.1, identsStmts r.2), r.1.members, ?_, rfl, ?_,
      hdistinct⟩).1
    · rw [bound] at hr
      rw [hr]
      rfl
    · cases hout
      exact ⟨hspelled, hdeclared, fun n _ hn => hcreated n hn⟩
  · intro hapart
    obtain ⟨r, added, hr, hmembers, hkept, hdistinct⟩ :=
      (hstep (canonical (bindStmts body Env.start).1)).kept_iff.mp ⟨hapart, canon_canonical _⟩
    obtain ⟨q, hq, rfl⟩ := Option.map_eq_some_iff.mp hr
    obtain rfl : q.1.members = added := hmembers
    refine ⟨q.2, q.1.members, ?_, _, hkept.spelled, hkept.declared,
      fun n hn => hkept.created n (Nat.zero_le n) hn, hdistinct⟩
    rw [liftVardecl, bound, hq]
    rfl

theorem plain_of_head {c : Char} {x : Name} (hc : c ≠ 'b')
    (hx : ∀ d ∈ c :: x, d.isAlphanum = true ∨ d = '_') : Plain (c :: x) :=
  ⟨hx, fun ⟨_, _, heq⟩ => hc (List.head_eq_of_cons_eq heq)⟩

/-- `int x; { int x; x; } x;` -/
def shadowing : List (Stmt Role) :=
  let use : Stmt Role := .basic [.node .chain [.ident .name ['x']]]
  let decl : Stmt Role :=
    .basic [.node .chain [.ident .name "int".toList, .ident .declared ['x']]]
  [decl, .block [decl, use], use]

theorem lifted_right_shadowing :
    (∀ x ∈ declaredNames (identsStmts shadowing), Plain x) ∧ Right shadowing := by
  have hplain : ∀ x ∈ declaredNames (identsStmts shadowing), Plain x := by
    intro x hx
    have hx' : x = ['x'] := by
      have hall : ∀ y ∈ declaredNames (identsStmts shadowing), y = ['x'] := by decide +kernel
      exact hall x hx
    rw [hx']
    refine plain_of_head (by decide) fun d hd => Or.inl ?_
    obtain rfl := List.mem_singleton.mp hd
    rfl
  refine ⟨hplain, (lifted_right_iff shadowing hplain).mpr ?_⟩
  decide +kernel

/-- `int width = in . width();` -/
def widthBody : List (Stmt Role) :=
  [.basic [.node .chain [.ident .name "int".toList, .ident .declared "width".toList,
    .leaf .op ['='], .ident .name "in".toList, .leaf .op ['.'],
    .node .call [.ident .other "width".toList, .node .args []]]]]

/-- The method has become the member for the variable. -/
theorem not_right_width : ¬ Right widthBody := by
  rintro ⟨out, members, hrun, member, hspelled, -⟩
  have hidents : (liftVardecl (bound widthBody)).map (fun r =>
      (identsStmts r.1).map fun o => (o.1.decl, o.1.name, o.2)) =
      some [(some 0, "width".toList, "blocal_width".toList), (none, "in".toList, "in".toList),
        (none, "width".toList, "blocal_width".toList)] := by
    decide +kernel
  rw [hrun, Option.map_some, Option.some.injEq] at hidents
  have hmem : (none, "width".toList, "blocal_width".toList) ∈
      (identsStmts out).map fun o => (o.1.decl, o.1.name, o.2) := by
    rw [hidents]
    decide
  obtain ⟨o, ho, heq⟩ := List.mem_map.mp hmem
  have hs := hspelled o (List.mem_append_left _ ho)
  obtain ⟨hdecl, hname, htext⟩ : o.1.decl = none ∧ o.1.name = "width".toList ∧
      o.2 = "blocal_width".toList := by
    simpa using heq
  rw [Spelled, hdecl] at hs
  exact absurd (htext.symm.trans (hs.trans hname)) (by decide)

end PbLiftVardecl
