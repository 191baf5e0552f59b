import PetaBricks.LiftVardeclModel

/-! # The scopes of the pass, beside those of C++

    The pass keeps a layer of symbols for each open brace, and the numbers of the braces as the
    beginning of its members' names.  Where it has declared what C++ declares, a layer has the
    names that the block holds (`Follows`), and the names of members tell declarations apart. -/

namespace PbLiftVardecl

open PbDecimal
open PbScoping

/-! ## The names of members -/

/-- The member for a variable of the block with this path. -/
def memberName (path : List ℕ) (x : Name) : Name :=
  'b' :: ['b'].intercalate (path.map digitsText) ++ "local_".toList ++ x

def IsMemberName (s : Name) : Prop := ∃ path x, s = memberName path x

theorem intercalate_digits (path : List ℕ) :
    'b' :: ['b'].intercalate (path.map digitsText) =
      if path = [] then ['b'] else path.flatMap fun i => 'b' :: digitsText i := by
  induction path with
  | nil => rfl
  | cons i path ih =>
      cases path with
      | nil => simp [List.intercalate]
      | cons j path =>
          rw [if_neg (List.cons_ne_nil _ _)] at ih ⊢
          rw [List.flatMap_cons, ← ih, List.map_cons, List.map_cons, List.intercalate_cons_cons]
          simp

/-- The digits in front tell the paths apart. -/
theorem path_injective {p q : List ℕ} {s t : Name}
    (h : (p.flatMap fun i => 'b' :: digitsText i) ++ 'l' :: s =
      (q.flatMap fun i => 'b' :: digitsText i) ++ 'l' :: t) : p = q ∧ s = t := by
  have hstop : ∀ (r : List ℕ) (u : Name),
      NoDigit ((r.flatMap fun i => 'b' :: digitsText i) ++ 'l' :: u) := by
    intro r u c hc
    cases r with
    | nil =>
        cases hc
        decide
    | cons i r =>
        cases hc
        decide
  induction p generalizing q with
  | nil =>
      cases q with
      | nil => exact ⟨rfl, List.tail_eq_of_cons_eq h⟩
      | cons j q => cases List.head_eq_of_cons_eq h
  | cons i p ih =>
      cases q with
      | nil => cases List.head_eq_of_cons_eq h
      | cons j q =>
          have hrest : digitsText i ++ ((p.flatMap fun i => 'b' :: digitsText i) ++ 'l' :: s) =
              digitsText j ++ ((q.flatMap fun i => 'b' :: digitsText i) ++ 'l' :: t) := by
            rw [List.flatMap_cons, List.flatMap_cons, List.append_assoc, List.append_assoc] at h
            exact List.tail_eq_of_cons_eq h
          have hnumber : digitsText i = digitsText j := by
            rw [← takeWhile_digits (digitsText_isDigit i) (hstop p s), hrest,
              takeWhile_digits (digitsText_isDigit j) (hstop q t)]
          rw [hnumber] at hrest
          obtain ⟨rfl, hst⟩ := ih (List.append_cancel_left hrest)
          rw [← ofDigits_digitsText i, hnumber, ofDigits_digitsText]
          exact ⟨rfl, hst⟩

theorem memberName_injective {p q : List ℕ} {x y : Name} (h : memberName p x = memberName q y) :
    p = q ∧ x = y := by
  rw [memberName, memberName, intercalate_digits, intercalate_digits] at h
  -- with no number there is a `b` more
  have hcases : ∀ (r : List ℕ), r ≠ [] → ∀ s, ∃ c t,
      (r.flatMap fun i => 'b' :: digitsText i) ++ s = 'b' :: c :: t ∧ c.isDigit = true := by
    intro r hr s
    obtain ⟨i, r, rfl⟩ := List.exists_cons_of_ne_nil hr
    obtain ⟨c, t, hc, hdigit⟩ := digitsText_eq_cons i
    exact ⟨c, _, by rw [List.flatMap_cons, hc]; rfl, hdigit⟩
  by_cases hp : p = [] <;> by_cases hq : q = []
  · rw [hp, hq] at h ⊢
    exact ⟨rfl, List.append_cancel_left h⟩
  · rw [if_pos hp, if_neg hq, List.append_assoc] at h
    obtain ⟨c, t, heq, hc⟩ := hcases q hq ("local_".toList ++ y)
    rw [List.append_assoc, heq] at h
    cases h
    cases hc
  · rw [if_neg hp, if_pos hq, List.append_assoc] at h
    obtain ⟨c, t, heq, hc⟩ := hcases p hp ("local_".toList ++ x)
    rw [List.append_assoc, heq] at h
    cases h
    cases hc
  · rw [if_neg hp, if_neg hq, List.append_assoc, List.append_assoc] at h
    obtain ⟨hpath, hrest⟩ := path_injective h
    exact ⟨hpath, (List.append_right_inj "ocal_".toList).mp hrest⟩

/-- A member's name is longer than the variable's. -/
theorem memberName_ne (p : List ℕ) (x : Name) : memberName p x ≠ x := by
  intro h
  have hlen := congrArg List.length h
  rw [memberName, List.append_assoc, List.length_append, List.length_append] at hlen
  simp at hlen
  omega

theorem memberName_ne_nil (p : List ℕ) (x : Name) : memberName p x ≠ [] := List.cons_ne_nil _ _

/-- No type begins as members do. -/
theorem memberName_not_type (p : List ℕ) (x : Name) : memberName p x ∉ typeScope := by
  have hbegin : ∃ c t, memberName p x = 'b' :: c :: t ∧ c ≠ 'o' := by
    rw [memberName, intercalate_digits]
    by_cases hp : p = []
    · rw [if_pos hp]
      exact ⟨'l', _, rfl, by decide⟩
    · obtain ⟨i, r, rfl⟩ := List.exists_cons_of_ne_nil hp
      obtain ⟨c, t, hc, hdigit⟩ := digitsText_eq_cons i
      rw [if_neg hp, List.flatMap_cons, hc]
      refine ⟨c, _, rfl, ?_⟩
      rintro rfl
      cases hdigit
  obtain ⟨c, t, heq, hc⟩ := hbegin
  rw [heq, typeScope, List.mem_append, List.mem_flatMap]
  rintro (hbasic | ⟨i, -, hregion⟩)
  · simp only [List.mem_cons, List.not_mem_nil, or_false] at hbasic
    rcases hbasic with h | h | h | h | h | h | h | h | h | h <;> cases h
    exact hc rfl
  · simp only [List.mem_append, List.mem_cons, List.not_mem_nil, or_false, List.mem_flatMap,
      List.mem_map] at hregion
    rcases hregion with (h | h) | ⟨rf, hrf, r, -, h⟩
    · cases h
    · cases h
    · rcases hrf with rfl | rfl | rfl | rfl <;> cases h

/-- A name as C++ writes them, and none that a member is given. -/
def Plain (x : Name) : Prop := (∀ c ∈ x, c.isAlphanum = true ∨ c = '_') ∧ ¬ IsMemberName x

/-! ## The declarations of a body -/

def declaredNames (l : List (Role × Name)) : List Name :=
  l.filterMap fun i => if i.1 = .declared then some i.2 else none

theorem declaredNames_append (l l' : List (Role × Name)) :
    declaredNames (l ++ l') = declaredNames l ++ declaredNames l' := List.filterMap_append

/-- These names have been declared, and the blocks are those of before. -/
structure Grows (e e' : Env Name) (names : List Name) : Prop where
  wf : Wf e → Wf e'
  decls : ∃ new, e'.decls = e.decls ++ new ∧ new.map Prod.snd = names
  outer : e'.outer.length = e.outer.length

section Bind

variable {e e₁ e₂ : Env Name} {a b : List Name}

theorem Grows.refl : Grows e e [] := ⟨id, ⟨[], (List.append_nil _).symm, rfl⟩, rfl⟩

theorem Grows.trans (h : Grows e e₁ a) (h' : Grows e₁ e₂ b) : Grows e e₂ (a ++ b) := by
  obtain ⟨n, hn, hna⟩ := h.decls
  obtain ⟨m, hm, hmb⟩ := h'.decls
  refine ⟨fun hwf => h'.wf (h.wf hwf), ⟨n ++ m, ?_, ?_⟩, h'.outer.trans h.outer⟩
  · rw [hm, hn, List.append_assoc]
  · rw [List.map_append, hna, hmb]

theorem Grows.length_le (h : Grows e e₁ a) : e.decls.length ≤ e₁.decls.length := by
  obtain ⟨n, hn, -⟩ := h.decls
  rw [hn, List.length_append]
  exact Nat.le_add_right _ _

theorem Grows.get (h : Grows e e₁ a) {n : ℕ} {d : List ℕ × Name} (hn : e.decls[n]? = some d) :
    e₁.decls[n]? = some d := by
  obtain ⟨new, hnew, -⟩ := h.decls
  rw [hnew, List.getElem?_append_left (List.getElem?_eq_some_iff.mp hn).1, hn]

theorem grows_see (r : Role) (s : Name) : Grows e (see e r s) (declaredNames [(r, s)]) := by
  cases r with
  | name => exact .refl
  | other => exact .refl
  | declared => exact ⟨fun hwf => hwf.declare s, ⟨_, rfl, rfl⟩, rfl⟩

theorem closeBlock_decls (e : Env Name) : e.closeBlock.decls = e.decls := by
  rw [Env.closeBlock]
  split <;> rfl

theorem grows_openScope : Grows e e.openScope [] :=
  ⟨Wf.openScope, ⟨[], (List.append_nil _).symm, rfl⟩, rfl⟩

theorem grows_closeScope : Grows e e.closeScope [] :=
  ⟨Wf.closeScope, ⟨[], (List.append_nil _).symm, rfl⟩, rfl⟩

theorem Grows.outer_ne_nil (h : Grows e.openBlock e₁ a) : e₁.outer ≠ [] := by
  intro hnil
  have houter := h.outer
  rw [hnil] at houter
  cases houter

/-- What is declared in a block. -/
theorem Grows.block (h : Grows e.openBlock e₁ a) : Grows e e₁.closeBlock a := by
  obtain ⟨b, bs, hb⟩ := List.exists_cons_of_ne_nil h.outer_ne_nil
  have houter := h.outer
  rw [hb] at houter
  refine ⟨fun hwf => (h.wf hwf.openBlock).closeBlock, ?_, ?_⟩
  · rw [closeBlock_decls]
    exact h.decls
  · rw [Env.closeBlock, hb]
    exact Nat.succ.inj houter

mutual

theorem bindExpr_grows : ∀ (x : Expr Role) (e : Env Name),
    Grows e (bindExpr x e).1 (declaredNames x.idents)
  | .leaf _ _, _ => .refl
  | .ident r s, _ => grows_see r s
  | .node _ parts, e => bindExprs_grows parts e

theorem bindExprs_grows : ∀ (xs : List (Expr Role)) (e : Env Name),
    Grows e (bindExprs xs e).1 (declaredNames (identsExprs xs))
  | [], _ => .refl
  | x :: xs, e => by
      rw [identsExprs, declaredNames_append]
      exact (bindExpr_grows x e).trans (bindExprs_grows xs _)

end

mutual

theorem bindStmt_grows : ∀ (s : Stmt Role) (e : Env Name),
    Grows e (bindStmt s e).1 (declaredNames s.idents)
  | .basic es, e => bindExprs_grows es e
  | .block ss, e => (bindStmts_grows ss e.openBlock).block
  | .control _ es parts, e => by
      have hexprs := grows_openScope.trans (bindExprs_grows es e.openScope)
      have hparts := hexprs.trans (bindParts_grows parts (bindExprs es e.openScope).1)
      have hall := hparts.trans grows_closeScope
      rw [List.nil_append, List.append_nil, ← declaredNames_append] at hall
      exact hall
  | .raw src, e => bindExprs_grows src e

theorem bindStmts_grows : ∀ (ss : List (Stmt Role)) (e : Env Name),
    Grows e (bindStmts ss e).1 (declaredNames (identsStmts ss))
  | [], _ => .refl
  | s :: ss, e => by
      rw [identsStmts, declaredNames_append]
      exact (bindStmt_grows s e).trans (bindStmts_grows ss _)

theorem bindParts_grows : ∀ (ss : List (Stmt Role)) (e : Env Name),
    Grows e (bindParts ss e).1 (declaredNames (identsStmts ss))
  | [], _ => .refl
  | s :: ss, e => by
      have hfirst := (grows_openScope.trans (bindStmt_grows s e.openScope)).trans grows_closeScope
      rw [List.nil_append, List.append_nil] at hfirst
      rw [identsStmts, declaredNames_append]
      exact hfirst.trans (bindParts_grows ss _)

end

end Bind

/-! ## What the identifiers of a bound body say -/

section Occurrences

mutual

theorem bindExpr_declared : ∀ (x : Expr Role) (e : Env Name), ∀ o ∈ (bindExpr x e).2.idents,
    o.1.role = .declared →
      ∃ n, o.1.decl = some n ∧ e.decls.length ≤ n ∧ n < (bindExpr x e).1.decls.length
  | .leaf _ _, _ => fun o ho => by cases ho
  | .ident r s, e => fun o ho hr => by
      obtain rfl := List.mem_singleton.mp ho
      obtain rfl : r = .declared := hr
      exact ⟨_, rfl, le_rfl, by simp [bindExpr, see, Env.declare]⟩
  | .node _ parts, e => bindExprs_declared parts e

theorem bindExprs_declared : ∀ (xs : List (Expr Role)) (e : Env Name),
    ∀ o ∈ identsExprs (bindExprs xs e).2, o.1.role = .declared →
      ∃ n, o.1.decl = some n ∧ e.decls.length ≤ n ∧ n < (bindExprs xs e).1.decls.length
  | [], _ => fun o ho => by cases ho
  | x :: xs, e => fun o ho hr => by
      have hle := (bindExpr_grows x e).length_le
      have hle' := (bindExprs_grows xs (bindExpr x e).1).length_le
      rcases List.mem_append.mp ho with ho | ho
      · obtain ⟨n, hn, hlo, hhi⟩ := bindExpr_declared x e o ho hr
        exact ⟨n, hn, hlo, hhi.trans_le hle'⟩
      · obtain ⟨n, hn, hlo, hhi⟩ := bindExprs_declared xs _ o ho hr
        exact ⟨n, hn, hle.trans hlo, hhi⟩

end

mutual

theorem bindStmt_declared : ∀ (s : Stmt Role) (e : Env Name), ∀ o ∈ (bindStmt s e).2.idents,
    o.1.role = .declared →
      ∃ n, o.1.decl = some n ∧ e.decls.length ≤ n ∧ n < (bindStmt s e).1.decls.length
  | .basic es, e => bindExprs_declared es e
  | .block ss, e => fun o ho hr => by
      obtain ⟨n, hn, hlo, hhi⟩ := bindStmts_declared ss e.openBlock o ho hr
      refine ⟨n, hn, hlo, ?_⟩
      rw [bindStmt, closeBlock_decls]
      exact hhi
  | .control _ es parts, e => fun o ho hr => by
      have hle := (bindExprs_grows es e.openScope).length_le
      have hle' := (bindParts_grows parts (bindExprs es e.openScope).1).length_le
      rcases List.mem_append.mp ho with ho | ho
      · obtain ⟨n, hn, hlo, hhi⟩ := bindExprs_declared es e.openScope o ho hr
        exact ⟨n, hn, hlo, hhi.trans_le hle'⟩
      · obtain ⟨n, hn, hlo, hhi⟩ := bindParts_declared parts _ o ho hr
        exact ⟨n, hn, hle.trans hlo, hhi⟩
  | .raw src, e => bindExprs_declared src e

theorem bindStmts_declared : ∀ (ss : List (Stmt Role)) (e : Env Name),
    ∀ o ∈ identsStmts (bindStmts ss e).2, o.1.role = .declared →
      ∃ n, o.1.decl = some n ∧ e.decls.length ≤ n ∧ n < (bindStmts ss e).1.decls.length
  | [], _ => fun o ho => by cases ho
  | s :: ss, e => fun o ho hr => by
      have hle := (bindStmt_grows s e).length_le
      have hle' := (bindStmts_grows ss (bindStmt s e).1).length_le
      rcases List.mem_append.mp ho with ho | ho
      · obtain ⟨n, hn, hlo, hhi⟩ := bindStmt_declared s e o ho hr
        exact ⟨n, hn, hlo, hhi.trans_le hle'⟩
      · obtain ⟨n, hn, hlo, hhi⟩ := bindStmts_declared ss _ o ho hr
        exact ⟨n, hn, hle.trans hlo, hhi⟩

theorem bindParts_declared : ∀ (ss : List (Stmt Role)) (e : Env Name),
    ∀ o ∈ identsStmts (bindParts ss e).2, o.1.role = .declared →
      ∃ n, o.1.decl = some n ∧ e.decls.length ≤ n ∧ n < (bindParts ss e).1.decls.length
  | [], _ => fun o ho => by cases ho
  | s :: ss, e => fun o ho hr => by
      have hle := (bindStmt_grows s e.openScope).length_le
      have hle' := (bindParts_grows ss (bindStmt s e.openScope).1.closeScope).length_le
      rcases List.mem_append.mp ho with ho | ho
      · obtain ⟨n, hn, hlo, hhi⟩ := bindStmt_declared s e.openScope o ho hr
        exact ⟨n, hn, hlo, hhi.trans_le hle'⟩
      · obtain ⟨n, hn, hlo, hhi⟩ := bindParts_declared ss _ o ho hr
        exact ⟨n, hn, hle.trans hlo, hhi⟩

end

mutual

/-- An occurrence has the name that is written there, and its declaration is one of that name. -/
theorem bindExpr_known : ∀ (x : Expr Role) (e : Env Name), Wf e → ∀ o ∈ (bindExpr x e).2.idents,
    o.1.name = o.2 ∧ ∀ n, o.1.decl = some n → ∃ q, (bindExpr x e).1.decls[n]? = some (q, o.2)
  | .leaf _ _, _, _ => fun o ho => by cases ho
  | .ident r s, e, hwf => fun o ho => by
      obtain rfl := List.mem_singleton.mp ho
      refine ⟨rfl, fun n hn => ?_⟩
      cases r with
      | name => exact find_some hwf hn
      | other => cases hn
      | declared =>
          cases hn
          exact ⟨_, List.getElem?_concat_length⟩
  | .node _ parts, e, hwf => bindExprs_known parts e hwf

theorem bindExprs_known : ∀ (xs : List (Expr Role)) (e : Env Name), Wf e →
    ∀ o ∈ identsExprs (bindExprs xs e).2,
      o.1.name = o.2 ∧ ∀ n, o.1.decl = some n → ∃ q, (bindExprs xs e).1.decls[n]? = some (q, o.2)
  | [], _, _ => fun o ho => by cases ho
  | x :: xs, e, hwf => fun o ho => by
      rcases List.mem_append.mp ho with ho | ho
      · obtain ⟨hname, hdecl⟩ := bindExpr_known x e hwf o ho
        refine ⟨hname, fun n hn => ?_⟩
        obtain ⟨q, hq⟩ := hdecl n hn
        exact ⟨q, (bindExprs_grows xs _).get hq⟩
      · exact bindExprs_known xs _ ((bindExpr_grows x e).wf hwf) o ho

end

mutual

/-- Binding keeps the spelling and the roles. -/
theorem bindExpr_roles : ∀ (x : Expr Role) (e : Env Name),
    (bindExpr x e).2.idents.map (fun o => (o.1.role, o.2)) = x.idents
  | .leaf _ _, _ => rfl
  | .ident _ _, _ => rfl
  | .node _ parts, e => bindExprs_roles parts e

theorem bindExprs_roles : ∀ (xs : List (Expr Role)) (e : Env Name),
    (identsExprs (bindExprs xs e).2).map (fun o => (o.1.role, o.2)) = identsExprs xs
  | [], _ => rfl
  | x :: xs, e => by
      rw [bindExprs, identsExprs, identsExprs, List.map_append, bindExpr_roles, bindExprs_roles]

end

mutual

/-- Only declarations change what names stand for. -/
theorem bindExpr_env : ∀ (x : Expr Role) (e : Env Name),
    (bindExpr x e).1 = (declaredNames x.idents).foldl Env.declare e
  | .leaf _ _, _ => rfl
  | .ident r _, _ => by cases r <;> rfl
  | .node _ parts, e => bindExprs_env parts e

theorem bindExprs_env : ∀ (xs : List (Expr Role)) (e : Env Name),
    (bindExprs xs e).1 = (declaredNames (identsExprs xs)).foldl Env.declare e
  | [], _ => rfl
  | x :: xs, e => by
      rw [identsExprs, declaredNames_append, List.foldl_append, ← bindExpr_env, ← bindExprs_env]
      rfl

end

theorem bindExprs_append : ∀ (xs ys : List (Expr Role)) (e : Env Name),
    bindExprs (xs ++ ys) e = ((bindExprs ys (bindExprs xs e).1).1,
      (bindExprs xs e).2 ++ (bindExprs ys (bindExprs xs e).1).2)
  | [], _, _ => rfl
  | x :: xs, ys, e => by
      rw [List.cons_append, bindExprs, bindExprs_append xs ys]
      rfl

theorem bindExprs_length (xs : List (Expr Role)) (e : Env Name) :
    (bindExprs xs e).2.length = xs.length := by
  induction xs generalizing e with
  | nil => rfl
  | cons x xs ih => exact congrArg (· + 1) (ih _)

/-- A bound list in two parts. -/
theorem bindExprs_split : ∀ {ys : List (Expr Occurrence)} {xs : List (Expr Role)} {e : Env Name}
    {zs : List (Expr Occurrence)}, (bindExprs xs e).2 = ys ++ zs →
      ∃ xs₁ xs₂, xs = xs₁ ++ xs₂ ∧ (bindExprs xs₁ e).2 = ys ∧
        (bindExprs xs₂ (bindExprs xs₁ e).1).2 = zs
  | [], xs, _, _, h => ⟨[], xs, rfl, rfl, h⟩
  | _ :: _, [], _, _, h => by cases h
  | y :: ys, x :: xs, e, zs, h => by
      obtain ⟨xs₁, xs₂, rfl, h₁, h₂⟩ := bindExprs_split (List.tail_eq_of_cons_eq h)
      refine ⟨x :: xs₁, xs₂, rfl, ?_, h₂⟩
      rw [bindExprs, h₁, List.head_eq_of_cons_eq h]

/-- Where nothing is declared, names stand for what they did. -/
theorem bindExprs_still {xs : List (Expr Role)} {e : Env Name}
    (h : ∀ o ∈ identsExprs (bindExprs xs e).2, o.1.role ≠ .declared) : (bindExprs xs e).1 = e := by
  have hnone : declaredNames (identsExprs xs) = [] := by
    rw [← bindExprs_roles xs e, declaredNames, List.filterMap_eq_nil_iff]
    intro i hi
    obtain ⟨o, ho, rfl⟩ := List.mem_map.mp hi
    exact if_neg (h o ho)
  rw [bindExprs_env, hnone]
  rfl

theorem identsExprs_append {A : Type} (xs ys : List (Expr A)) :
    identsExprs (xs ++ ys) = identsExprs xs ++ identsExprs ys := by
  induction xs with
  | nil => rfl
  | cons x xs ih => rw [List.cons_append, identsExprs, identsExprs, ih, List.append_assoc]

end Occurrences

/-! ## The scopes of the pass -/

/-- A layer has the names that its block holds, with their members. -/
structure LayerOf (b : Block Name) (l : Layer) : Prop where
  held : ∀ x, ¬ IsMemberName x → l.lookup x =
    if (b.held.lookup x).isSome then some (.localVar (memberName b.path x)) else none
  given : ∀ x, IsMemberName x → l.lookup x = none ∨ l.lookup x = some (.localVar [])

/-- The pass has a layer and a number for each open block, and a member for each declaration. -/
structure Follows {A : Type} (e : Env Name) (p : LiftVardeclPass A) : Prop where
  wf : Wf e
  plain : ∀ d ∈ e.decls, Plain d.2
  layers : List.Forall₂ LayerOf e.blocks p.scope
  path : p.prefixStack.tail.reverse = e.block.path.map (Nat.cast : ℕ → ℤ)
  counter : p.prefixStack.head?.getD (-1) + 1 = e.block.children
  members : p.members.map Member.name = e.decls.map fun d => memberName d.1 d.2
  distinct : e.decls.Nodup
  extras : ∀ m ∈ p.members, ∀ c ∈ (texts m.extra).flatten.head?, c = '['

section Layers

variable {bs : List (Block Name)} {ls : List Layer} {x : Name} {n : ℕ}

/-- A name that no block holds is no variable, and a type if it is one outside. -/
theorem lookup_of_none (h : List.Forall₂ LayerOf bs ls)
    (hx : (bs.flatMap Block.held).lookup x = none) :
    (∀ r, lookup ls x = some (.localVar r) → r = []) ∧
      (lookup ls x = some .type ↔ x ∈ typeScope) := by
  induction h with
  | nil =>
      rw [lookup]
      split
      · rename_i hmem
        exact ⟨fun r hr => (by cases hr), fun _ => hmem, fun _ => rfl⟩
      · rename_i hmem
        exact ⟨fun r hr => (by cases hr), fun ht => (by cases ht), fun ht => absurd ht hmem⟩
  | @cons b l bs ls hl _ ih =>
      rw [List.flatMap_cons, List.lookup_append, Option.or_eq_none_iff] at hx
      have hrest := ih hx.2
      rw [lookup]
      by_cases hm : IsMemberName x
      · rcases hl.given x hm with hl | hl
        · rw [hl]
          exact hrest
        · rw [hl]
          refine ⟨fun r hr => (Symbol.localVar.inj (Option.some.inj hr)).symm, ?_⟩
          obtain ⟨p, y, rfl⟩ := hm
          exact ⟨fun ht => (by cases ht), fun ht => absurd ht (memberName_not_type p y)⟩
      · have hnone := hl.held x hm
        rw [hx.1, Option.isSome_none, if_neg Bool.false_ne_true] at hnone
        rw [hnone]
        exact hrest

/-- A name that a block holds has the member for it. -/
theorem lookup_of_some (h : List.Forall₂ LayerOf bs ls) (hm : ¬ IsMemberName x)
    (hx : (bs.flatMap Block.held).lookup x = some n) :
    ∃ b ∈ bs, (x, n) ∈ b.held ∧ lookup ls x = some (.localVar (memberName b.path x)) := by
  induction h with
  | nil => cases hx
  | @cons b l bs ls hl _ ih =>
      have hlayer := hl.held x hm
      rw [List.flatMap_cons, List.lookup_append] at hx
      rw [lookup]
      cases hb : b.held.lookup x with
      | some k =>
          rw [hb, Option.some_or] at hx
          rw [hb, Option.isSome_some, if_pos rfl] at hlayer
          rw [hlayer]
          exact ⟨b, List.mem_cons_self, mem_of_lookup (hx ▸ hb), rfl⟩
      | none =>
          rw [hb, Option.none_or] at hx
          rw [hb, Option.isSome_none, if_neg Bool.false_ne_true] at hlayer
          rw [hlayer]
          obtain ⟨c, hc, hheld, hlookup⟩ := ih hx
          exact ⟨c, List.mem_cons_of_mem _ hc, hheld, hlookup⟩

end Layers

section Follows

variable {A : Type} {e : Env Name} {p : LiftVardeclPass A} {s : Name} {n : ℕ} {first : Bool}
  {a : A} {fwd : List (Expr A)}

theorem follows_start : Follows (Env.start : Env Name) (.start : LiftVardeclPass A) where
  wf := wf_start
  plain := fun d hd => by cases hd
  layers := .cons ⟨fun _ _ => rfl, fun _ _ => .inl rfl⟩ .nil
  path := rfl
  counter := rfl
  members := rfl
  distinct := .nil
  extras := fun m hm => by cases hm

theorem Follows.plain_of_get (h : Follows e p) {q : List ℕ} (hn : e.decls[n]? = some (q, s)) :
    Plain s := h.plain (q, s) (List.mem_of_getElem? hn)

/-- What is not held stays. -/
theorem Follows.replaced_none (h : Follows e p) (hs : e.near s = none) (fuel : ℕ) :
    replaced p.scope fuel s = s := by
  have hlookup := (lookup_of_none h.layers hs).1
  cases fuel with
  | zero => rfl
  | succ fuel =>
      rw [replaced]
      split
      · rename_i r hr
        rw [if_neg fun hne => hne.1 (hlookup r hr)]
      · rfl

/-- What is held becomes the member's name, which is not replaced again. -/
theorem Follows.replaced_some (h : Follows e p) (hs : e.near s = some n) (fuel : ℕ) :
    ∃ q, e.decls[n]? = some (q, s) ∧ replaced p.scope (fuel + 1) s = memberName q s := by
  obtain ⟨b, hb, hheld, hget⟩ := near_some h.wf hs
  have hplain := (h.plain_of_get hget).2
  obtain ⟨c, hc, hheld, hlookup⟩ := lookup_of_some h.layers hplain hs
  have hget' := h.wf.sound c hc _ hheld
  refine ⟨c.path, hget', ?_⟩
  have hnear : e.near (memberName c.path s) = none := by
    by_contra hne
    obtain ⟨k, hk⟩ := Option.ne_none_iff_exists'.mp hne
    obtain ⟨d, -, -, hd⟩ := near_some h.wf hk
    exact (h.plain_of_get hd).2 ⟨_, _, rfl⟩
  rw [replaced, hlookup]
  show (if _ ∧ _ then _ else _) = _
  rw [if_pos ⟨memberName_ne_nil _ _, memberName_ne _ _⟩, h.replaced_none hnear]

/-- An identifier that a block holds. -/
theorem Follows.before_some (h : Follows e p) (hs : e.near s = some n) :
    ∃ q, e.decls[n]? = some (q, s) ∧
      p.before first a s fwd = some (p, [.ident a (memberName q s)], 0) := by
  obtain ⟨q, hget, hreplaced⟩ := h.replaced_some hs p.symbols
  refine ⟨q, hget, ?_⟩
  have hnear : e.near (memberName q s) = none := by
    by_contra hne
    obtain ⟨k, hk⟩ := Option.ne_none_iff_exists'.mp hne
    obtain ⟨d, -, -, hd⟩ := near_some h.wf hk
    exact (h.plain_of_get hd).2 ⟨_, _, rfl⟩
  have htype := (lookup_of_none h.layers hnear).2
  rw [LiftVardeclPass.before, hreplaced]
  exact if_neg fun hif => memberName_not_type q s (htype.mp hif.2.1)

/-- An identifier that no block holds, and where no declaration begins. -/
theorem Follows.before_keep (h : Follows e p) (hs : e.near s = none)
    (hno : ¬ (first = true ∧ s ∈ typeScope ∧ smells fwd = true)) :
    p.before first a s fwd = some (p, [.ident a s], 0) := by
  rw [LiftVardeclPass.before, h.replaced_none hs]
  refine if_neg fun hif => hno ⟨hif.1, ?_, hif.2.2⟩
  exact (lookup_of_none h.layers hs).2.mp hif.2.1

/-- The place where a declaration begins. -/
theorem Follows.before_type (h : Follows e p) (hs : e.near s = none)
    (hif : first = true ∧ s ∈ typeScope ∧ smells fwd = true) :
    p.before first a s fwd = match behindStars fwd with
      | [] => some (p, .ident a s ::
          List.replicate (stars fwd).length (.node .chain [.leaf .op ['*']]), (stars fwd).length)
      | y :: ys => (nameExtra ys).bind fun extra => p.addMember y.text
          ⟨y.sourceOr a, .ident a s :: stars fwd, p.prefixText ++ y.text, extra⟩
          ((stars fwd).length + 1 + extra.length) := by
  have htype := (lookup_of_none h.layers hs).2.mpr hif.2.1
  rw [LiftVardeclPass.before, h.replaced_none hs]
  exact if_pos ⟨hif.1, htype, hif.2.2⟩

theorem intText_cast (i : ℕ) : intText (i : ℤ) = digitsText i := by
  rw [intText, if_neg (by omega), Int.natAbs_natCast]

theorem Follows.prefixText (h : Follows e p) (x : Name) :
    p.prefixText ++ x = memberName e.block.path x := by
  rw [LiftVardeclPass.prefixText, h.path, List.map_map, memberName]
  have hdigits : intText ∘ (Nat.cast : ℕ → ℤ) = digitsText := funext intText_cast
  rw [hdigits]

/-! ## The steps of the pass -/

theorem LayerOf.congr {b c : Block Name} {l : Layer} (h : LayerOf b l) (hpath : c.path = b.path)
    (hheld : ∀ d, d ∈ c.held ↔ d ∈ b.held) : LayerOf c l := by
  refine ⟨fun x hx => ?_, h.given⟩
  rw [h.held x hx, hpath]
  refine if_congr ?_ rfl rfl
  rw [lookup_isSome_iff, lookup_isSome_iff]
  exact exists_congr fun n => (hheld _).symm

theorem Follows.openScope (h : Follows e p) : Follows e.openScope p := by
  obtain ⟨l, ls, hl, hls, hscope⟩ := List.forall₂_cons_left_iff.mp h.layers
  exact ⟨h.wf.openScope, h.plain, hscope ▸ .cons (hl.congr rfl fun _ => Iff.rfl) hls, h.path,
    h.counter, h.members, h.distinct, h.extras⟩

theorem Follows.closeScope (h : Follows e p) : Follows e.closeScope p := by
  obtain ⟨l, ls, hl, hls, hscope⟩ := List.forall₂_cons_left_iff.mp h.layers
  have hheld := fun d => Block.mem_held_closeScope (b := e.block) (e := d)
  refine ⟨h.wf.closeScope, h.plain, hscope ▸ .cons (hl.congr Block.path_closeScope hheld) hls,
    ?_, ?_, h.members, h.distinct, h.extras⟩
  · rw [h.path, Env.closeScope, Block.path_closeScope]
  · rw [h.counter, Env.closeScope, Block.children_closeScope]

theorem Follows.openBlock (h : Follows e p) : Follows e.openBlock p.pushScope := by
  obtain ⟨l, ls, hl, hls, hscope⟩ := List.forall₂_cons_left_iff.mp h.layers
  have hnew : LayerOf e.openBlock.block [] := ⟨fun _ _ => rfl, fun _ _ => .inl rfl⟩
  refine ⟨h.wf.openBlock, h.plain, .cons hnew ?_, ?_, ?_, h.members, h.distinct,
    h.extras⟩
  · rw [hscope]
    exact .cons (hl.congr rfl fun _ => Iff.rfl) hls
  · have hpath := h.path
    have hcounter := h.counter
    rw [LiftVardeclPass.pushScope, Env.openBlock, List.map_append]
    cases hstack : p.prefixStack with
    | nil =>
        rw [hstack] at hpath hcounter
        rw [← hpath]
        exact congrArg (fun i => [i]) hcounter
    | cons i is =>
        rw [hstack] at hpath hcounter
        have hlast : i + 1 = e.block.children := hcounter
        show ((i + 1) :: is).reverse = _
        rw [List.reverse_cons, hlast]
        exact congrArg (· ++ _) hpath
  · rw [LiftVardeclPass.pushScope]
    cases p.prefixStack <;> rfl

theorem Follows.closeBlock (h : Follows e p) (houter : e.outer ≠ []) :
    Follows e.closeBlock p.popScope := by
  obtain ⟨b, bs, hb⟩ := List.exists_cons_of_ne_nil houter
  obtain ⟨l, ls, -, hls, hscope⟩ := List.forall₂_cons_left_iff.mp h.layers
  have hclose : e.closeBlock = ⟨b, bs, e.decls⟩ := by rw [Env.closeBlock, hb]
  have hnested := h.wf.nested
  rw [hb] at hnested hls
  obtain ⟨⟨c, hc, hpath⟩, -⟩ := hnested
  have hwf := h.wf.closeBlock
  have hstack := h.path
  rw [hpath, List.map_append] at hstack
  have htail : p.prefixStack.tail = (c : ℤ) :: (b.path.map (Nat.cast : ℕ → ℤ)).reverse := by
    rw [← List.reverse_reverse p.prefixStack.tail, hstack]
    simp
  rw [hclose] at hwf ⊢
  refine ⟨hwf, h.plain, ?_, ?_, ?_, h.members, h.distinct, h.extras⟩
  · rw [LiftVardeclPass.popScope, hscope]
    exact hls
  · rw [LiftVardeclPass.popScope, htail]
    simp
  · rw [LiftVardeclPass.popScope, htail, hc]
    rfl

theorem memberName_no_bracket (q : List ℕ) {x : Name} (hx : Plain x) :
    ∀ c ∈ memberName q x, c ≠ '[' := by
  rintro c hc rfl
  rw [memberName, intercalate_digits, List.append_assoc] at hc
  simp only [List.mem_append] at hc
  rcases hc with hc | hc | hc
  · split at hc
    · exact absurd hc (by decide)
    · obtain ⟨i, -, hi⟩ := List.mem_flatMap.mp hc
      rcases List.mem_cons.mp hi with hb | hi
      · cases hb
      · exact absurd (digitsText_isDigit i _ hi) (by decide)
  · exact absurd hc (by decide)
  · exact absurd (hx.1 _ hc) (by decide)

/-- A name ends where the bounds begin. -/
theorem takeWhile_name {name extra : Name} (hname : ∀ c ∈ name, c ≠ '[')
    (hextra : ∀ c ∈ extra.head?, c = '[') : (name ++ extra).takeWhile (· != '[') = name := by
  rw [List.takeWhile_append_of_pos fun c hc => bne_iff_ne.mpr (hname c hc)]
  cases extra with
  | nil => exact List.append_nil name
  | cons c extra =>
      rw [hextra c rfl]
      exact List.append_nil name

/-- `addMember` gets something new. -/
theorem Follows.key_new (h : Follows e p) {x : Name} (hx : Plain x) (hagain : e.again x = false)
    {m : Member A} (hm : m.name = memberName e.block.path x)
    (hextra : ∀ c ∈ (texts m.extra).flatten.head?, c = '[') :
    m.key ∉ p.members.map Member.key := by
  intro hmem
  obtain ⟨m', hm', hkey⟩ := List.mem_map.mp hmem
  obtain ⟨d, hd, hname⟩ : ∃ d ∈ e.decls, memberName d.1 d.2 = m'.name := by
    rw [← List.mem_map, ← h.members]
    exact List.mem_map_of_mem hm'
  have htext : m'.name ++ (texts m'.extra).flatten = m.name ++ (texts m.extra).flatten :=
    congrArg Prod.snd hkey
  have heq := congrArg (List.takeWhile (· != '[')) htext
  rw [← hname, hm, takeWhile_name (memberName_no_bracket _ (h.plain d hd)) (h.extras m' hm'),
    takeWhile_name (memberName_no_bracket _ hx) hextra] at heq
  obtain ⟨hpath, hd'⟩ := memberName_injective heq
  exact h.wf.not_mem_decls hagain ((Prod.ext hpath hd' : d = (e.block.path, x)) ▸ hd)

theorem Follows.declare (h : Follows e p) {x : Name} (hx : Plain x) (hagain : e.again x = false)
    {m : Member A} (hm : m.name = memberName e.block.path x)
    (hextra : ∀ c ∈ (texts m.extra).flatten.head?, c = '[') :
    Follows (e.declare x) (p.declare x m) := by
  obtain ⟨l, ls, hl, hls, hscope⟩ := List.forall₂_cons_left_iff.mp h.layers
  have hdeclare : (p.declare x m).scope =
      ((m.name, .localVar []) :: (x, .localVar m.name) :: l) :: ls := by
    rw [LiftVardeclPass.declare, hscope]
  have hname : IsMemberName m.name := ⟨_, _, hm⟩
  refine ⟨h.wf.declare x, ?_, ?_, h.path, h.counter, ?_, ?_, ?_⟩
  · intro d hd
    rcases List.mem_append.mp hd with hd | hd
    · exact h.plain d hd
    · rw [List.mem_singleton.mp hd]
      exact hx
  · rw [hdeclare]
    refine .cons ⟨fun y hy => ?_, fun y hy => ?_⟩ hls
    · have hne : (y == m.name) = false := beq_eq_false_iff_ne.mpr fun heq => hy (heq ▸ hname)
      have hholds : ((e.declare x).block.held.lookup y).isSome = true ↔
          y = x ∨ (e.block.held.lookup y).isSome = true := by
        rw [lookup_isSome_iff, lookup_isSome_iff]
        constructor
        · rintro ⟨n, hn⟩
          rcases Block.mem_held_declare.mp hn with heq | hn
          · exact .inl (congrArg Prod.fst heq)
          · exact .inr ⟨n, hn⟩
        · rintro (rfl | ⟨n, hn⟩)
          · exact ⟨_, Block.mem_held_declare.mpr (.inl rfl)⟩
          · exact ⟨n, Block.mem_held_declare.mpr (.inr hn)⟩
      rw [List.lookup_cons, hne]
      by_cases hyx : y = x
      · subst hyx
        rw [List.lookup_cons_self, if_pos (hholds.mpr (.inl rfl)), hm]
        rfl
      · rw [List.lookup_cons, beq_eq_false_iff_ne.mpr hyx, hl.held y hy]
        refine if_congr ?_ rfl rfl
        rw [hholds]
        exact ⟨.inr, fun hor => hor.resolve_left hyx⟩
    · by_cases heq : y = m.name
      · rw [heq, List.lookup_cons_self]
        exact .inr rfl
      · have hne : y ≠ x := fun hyx => hx.2 (hyx ▸ hy)
        rw [List.lookup_cons, beq_eq_false_iff_ne.mpr heq, List.lookup_cons,
          beq_eq_false_iff_ne.mpr hne]
        exact hl.given y hy
  · rw [LiftVardeclPass.declare, List.map_append, h.members, Env.declare, List.map_append]
    exact congrArg (fun y => _ ++ [y]) hm
  · refine List.nodup_append.mpr ⟨h.distinct, List.pairwise_singleton _ _, fun d hd d' hd' => ?_⟩
    rintro rfl
    exact h.wf.not_mem_decls hagain (List.mem_singleton.mp hd' ▸ hd)
  · intro m' hm'
    rcases List.mem_append.mp hm' with hm' | hm'
    · exact h.extras m' hm'
    · rw [List.mem_singleton.mp hm']
      exact hextra

end Follows

end PbLiftVardecl
