import PetaBricks.SizeQuotientProofs
import Mathlib.Tactic.FieldSimp

/-! # Which sizes are accepted

    The compiler solves the first formula of every variable (`firsts`), and the generated code
    asserts all formulas with these solutions.  An exact solver makes every variable the cut
    solution of its first formula (`run_spec`).  So consistent sizes are refused if a formula
    that is rounded comes first and the cut solution is not the one that fits the others. -/

namespace PbSizeInference

open PbFormula

/-! ## Linear formulas and exact solvers -/

/-- `f` has no variable but `x`, and is `a * x + b`. -/
structure Linear (f : Formula) (x : Name) (a b : ℚ) : Prop where
  free : f.getFreeVariables = {x}
  slope_ne : a ≠ 0
  value : ∀ t, f.eval (only x t) = some (.num (a * t + b))

/-- The solver answers every linear equation with its solution, as a quotient. -/
def Exact (solve : Solver) : Prop :=
  ∀ {tmp x : Name} {f : Formula} {a b : ℚ}, tmp ≠ x → Linear f x a b →
    ∃ g, solve [.binop .eq (.var tmp) f] x = [.binop .eq (.var x) g] ∧ IsQuotient g
      ∧ ∀ t, g.eval (only tmp t) = some (.num ((t - b) / a))

/-- The number that a formula is at `x = t`. -/
def valueAt (f : Formula) (x : Name) (t : ℚ) : ℚ :=
  match f.eval (only x t) with
  | some (.num q) => q
  | _ => 0

theorem Linear.valueAt {f : Formula} {x : Name} {a b : ℚ} (h : Linear f x a b) (t : ℚ) :
    valueAt f x t = a * t + b := by
  rw [PbSizeInference.valueAt, h.value t]

/-- What a linear formula is solved to. -/
def solution (f : Formula) (x : Name) (size : ℚ) : ℚ :=
  (size - valueAt f x 0) / (valueAt f x 1 - valueAt f x 0)

theorem Linear.solution {f : Formula} {x : Name} {a b : ℚ} (h : Linear f x a b) (size : ℚ) :
    solution f x size = (size - b) / a := by
  rw [PbSizeInference.solution, h.valueAt, h.valueAt, mul_zero, zero_add, mul_one,
    add_sub_cancel_right]

theorem mem_of_firstVariable {f : Formula} {x : Name} (h : firstVariable f = some x) :
    x ∈ f.getFreeVariables := by
  induction f with
  | var name =>
      rw [← Option.some.inj h]
      exact Finset.mem_singleton_self name
  | binop op l r ihl ihr =>
      refine Finset.mem_union.mpr ?_
      cases hl : firstVariable l with
      | some y =>
          rw [firstVariable, hl, Option.some_or] at h
          exact .inl (ihl (hl.trans h))
      | none =>
          rw [firstVariable, hl, Option.none_or] at h
          exact .inr (ihr h)
  | _ => cases h

theorem firstVariable_isSome {f : Formula} {x : Name} (h : x ∈ f.getFreeVariables) :
    (firstVariable f).isSome := by
  induction f with
  | var name => rfl
  | binop op l r ihl ihr =>
      rw [firstVariable, Option.isSome_or]
      rcases Finset.mem_union.mp h with hl | hr
      · rw [ihl hl, Bool.true_or]
      · rw [ihr hr, Bool.or_true]
  | _ => exact absurd h (Finset.notMem_empty x)

theorem onlyVariable_eq {f : Formula} {x : Name} (h : f.getFreeVariables = {x}) :
    onlyVariable f = some x := by
  have hx : x ∈ f.getFreeVariables := by
    rw [h]
    exact Finset.mem_singleton_self x
  obtain ⟨y, hy⟩ := Option.isSome_iff_exists.mp (firstVariable_isSome hx)
  have hyx := mem_of_firstVariable hy
  rw [h, Finset.mem_singleton] at hyx
  rw [onlyVariable, if_pos (by rw [h, Finset.card_singleton]), hy, hyx]

/-! ## First formulas -/

/-- A variable, the first dimension that has no other, and the left side of its equation. -/
structure First where
  var : Name
  tmp : Name
  dim : Dimension

namespace First

/-- The solver has to solve it. -/
def Solvable (p : First) : Prop := p.tmp ≠ p.var ∧ ∃ a b, Linear p.dim.formula p.var a b

/-- The exact solution for the actual size, cut. -/
def rounded (size : Name → ℤ) (p : First) : ℤ :=
  truncate (solution p.dim.formula p.var (size p.dim.call))

def define (solve : Solver) (p : First) : Option Define := solveFor solve p.tmp p.var p.dim

end First

/-- The equations that are solved; a temporary is made for the others too. -/
def firsts : List Dimension → List Name → ℕ → List First
  | [], _, _ => []
  | dim :: dims, defined, i =>
      match onlyVariable dim.formula with
      | none => firsts dims defined i
      | some var =>
          if var ∈ defined then firsts dims defined (i + 1)
          else ⟨var, tmpName i, dim⟩ :: firsts dims (var :: defined) (i + 1)

/-- **THE LINES ARE THE SOLVED FIRST FORMULAS.** -/
theorem foldlM_extractDefine (solve : Solver) (dims : List Dimension) (s : State) :
    (dims.foldlM (extractDefine solve) s).map State.defines
      = ((firsts dims s.defined s.tmps).mapM (First.define solve)).map (s.defines ++ ·) := by
  induction dims generalizing s with
  | nil => exact congrArg some (List.append_nil s.defines).symm
  | cons dim dims ih =>
      rw [List.foldlM_cons, extractDefine, firsts]
      cases hvar : onlyVariable dim.formula with
      | none => exact ih s
      | some var =>
          by_cases hin : var ∈ s.defined
          · simp only [if_pos hin]
            exact ih { s with tmps := s.tmps + 1 }
          · simp only [if_neg hin, List.mapM_cons]
            show _ = Option.map _ (Option.bind (solveFor solve (tmpName s.tmps) var dim) _)
            cases solveFor solve (tmpName s.tmps) var dim with
            | none => rfl
            | some define =>
                refine (ih ⟨var :: s.defined, s.tmps + 1, s.defines ++ [define]⟩).trans ?_
                cases (firsts dims (var :: s.defined) (s.tmps + 1)).mapM (First.define solve) with
                | none => rfl
                | some defines => exact congrArg some (List.append_assoc _ [define] defines)

/-- What is solved is defined nowhere before. -/
theorem mem_firsts {dims : List Dimension} {defined : List Name} {i : ℕ} {p : First}
    (hp : p ∈ firsts dims defined i) :
    p.var ∉ defined ∧ p.dim ∈ dims ∧ onlyVariable p.dim.formula = some p.var := by
  induction dims generalizing defined i with
  | nil => cases hp
  | cons dim dims ih =>
      rw [firsts] at hp
      cases hvar : onlyVariable dim.formula with
      | none =>
          rw [hvar] at hp
          obtain ⟨hnot, hmem, honly⟩ := ih hp
          exact ⟨hnot, List.mem_cons_of_mem _ hmem, honly⟩
      | some var =>
          simp only [hvar] at hp
          by_cases hin : var ∈ defined
          · rw [if_pos hin] at hp
            obtain ⟨hnot, hmem, honly⟩ := ih hp
            exact ⟨hnot, List.mem_cons_of_mem _ hmem, honly⟩
          · rw [if_neg hin] at hp
            rcases List.mem_cons.mp hp with rfl | hp
            · exact ⟨hin, List.mem_cons_self, hvar⟩
            · obtain ⟨hnot, hmem, honly⟩ := ih hp
              exact ⟨fun h => hnot (List.mem_cons_of_mem _ h), List.mem_cons_of_mem _ hmem, honly⟩

theorem nodup_firsts (dims : List Dimension) (defined : List Name) (i : ℕ) :
    ((firsts dims defined i).map First.var).Nodup := by
  induction dims generalizing defined i with
  | nil => exact List.nodup_nil
  | cons dim dims ih =>
      rw [firsts]
      cases onlyVariable dim.formula with
      | none => exact ih defined i
      | some var =>
          by_cases hin : var ∈ defined
          · simp only [if_pos hin]
            exact ih defined (i + 1)
          · simp only [if_neg hin]
            refine List.nodup_cons.mpr ⟨fun hmem => ?_, ih (var :: defined) (i + 1)⟩
            obtain ⟨p, hp, hpv⟩ := List.mem_map.mp hmem
            refine (mem_firsts hp).1 ?_
            rw [hpv]
            exact List.mem_cons_self

/-- Every variable that occurs alone is solved, if it is not defined. -/
theorem exists_first {dims : List Dimension} {defined : List Name} {i : ℕ} {dim : Dimension}
    {x : Name} (hdim : dim ∈ dims) (honly : onlyVariable dim.formula = some x)
    (hx : x ∉ defined) : ∃ p ∈ firsts dims defined i, p.var = x := by
  induction dims generalizing defined i with
  | nil => cases hdim
  | cons d dims ih =>
      rw [firsts]
      rcases List.mem_cons.mp hdim with rfl | hdim
      · rw [honly]
        simp only [if_neg hx]
        exact ⟨_, List.mem_cons_self, rfl⟩
      · cases onlyVariable d.formula with
        | none => exact ih hdim hx
        | some var =>
            by_cases hin : var ∈ defined
            · simp only [if_pos hin]
              exact ih hdim hx
            · simp only [if_neg hin]
              by_cases hxv : x = var
              · exact ⟨_, List.mem_cons_self, hxv.symm⟩
              · have hx' : x ∉ var :: defined := by
                  intro hmem
                  exact (List.mem_cons.mp hmem).elim hxv hx
                obtain ⟨p, hp, hpx⟩ := ih (i := i + 1) hdim hx'
                exact ⟨p, List.mem_cons_of_mem _ hp, hpx⟩

/-! ## Runs of the generated lines -/

section Run

variable {solve : Solver} {size : Name → ℤ}

theorem isCall_call {m : MatrixDef} {dim : Dimension} (h : dim ∈ m.dimensions) :
    isCall dim.call = true := by
  obtain ⟨⟨f, d⟩, -, rfl⟩ := List.mem_map.mp h
  show (String.toList (m.name ++ (".size(" ++ (toString d ++ ")")))).getLast? == some ')'
  rw [String.toList_append, String.toList_append, String.toList_append]
  have hlast : (")" : String).toList = [')'] := rfl
  rw [hlast, ← List.append_assoc, ← List.append_assoc, List.getLast?_concat]
  rfl

variable (size) in
/-- A first formula with an exact solver. -/
theorem First.define_spec (hexact : Exact solve) {p : First} (hp : p.Solvable)
    (hcall : isCall p.dim.call = true) :
    ∃ value, p.define solve = some ⟨p.var, value⟩ ∧
      ∀ env, evalC (withSizes size env) value = some (p.rounded size) := by
  obtain ⟨hne, a, b, hlinear⟩ := hp
  obtain ⟨g, hsolve, hquot, hg⟩ := hexact hne hlinear
  obtain ⟨value, hsub, hvalue⟩ := quotient_spec p.tmp p.dim.call hquot
  refine ⟨value, ?_, fun env => ?_⟩
  · rw [First.define, solveFor, hsolve]
    show Option.map _ (Formula.replace _ _ g) = _
    rw [hsub.replaced]
    rfl
  · have hsize : withSizes size env p.dim.call = some (size p.dim.call) := by
      rw [withSizes, if_pos hcall]
    rw [evalC, hvalue _ _ hsize _ (hg _), First.rounded, hlinear.solution]
    exact congrArg some (value_one _)

variable (size) in
/-- **THE GENERATED LINES COMPUTE THE CUT SOLUTIONS.** -/
theorem run_spec (hexact : Exact solve) {ps : List First} (hps : ∀ p ∈ ps, p.Solvable)
    (hcall : ∀ p ∈ ps, isCall p.dim.call = true) (hnodup : (ps.map First.var).Nodup)
    (env : CEnv) :
    ∃ defines env', ps.mapM (First.define solve) = some defines ∧
      defines.foldlM (assign size) env = some env' ∧
      ∀ x, env' x = ((ps.find? fun p => p.var == x).map (First.rounded size)).or (env x) := by
  induction ps generalizing env with
  | nil => exact ⟨[], env, rfl, rfl, fun x => Option.none_or.symm⟩
  | cons p ps ih =>
      obtain ⟨value, hdefine, hvalue⟩ :=
        First.define_spec size hexact (hps p List.mem_cons_self)
          (hcall p List.mem_cons_self)
      obtain ⟨hnot, hnodup⟩ := List.nodup_cons.mp hnodup
      obtain ⟨defines, env', hdefines, henv', hvalues⟩ :=
        ih (fun q hq => hps q (List.mem_cons_of_mem _ hq))
          (fun q hq => hcall q (List.mem_cons_of_mem _ hq)) hnodup
          (fun name => if name = p.var then some (p.rounded size) else env name)
      refine ⟨⟨p.var, value⟩ :: defines, env', ?_, ?_, fun x => ?_⟩
      · rw [List.mapM_cons, hdefine, hdefines]
        rfl
      · rw [List.foldlM_cons, assign, hvalue]
        exact henv'
      · rw [hvalues x]
        by_cases hx : x = p.var
        · have hnone : (ps.find? fun q => q.var == x) = none := by
            refine List.find?_eq_none.mpr fun q hq heq => hnot ?_
            rw [← hx, ← beq_iff_eq.mp heq]
            exact List.mem_map_of_mem hq
          have hfirst : ((p :: ps).find? fun q => q.var == x) = some p :=
            List.find?_cons_of_pos (beq_iff_eq.mpr hx.symm)
          rw [hnone, if_pos hx, hfirst]
          rfl
        · rw [if_neg hx, List.find?_cons_of_neg]
          exact fun heq => hx (beq_iff_eq.mp heq).symm

/-- With any solver, the lines set the variables that are solved and no other. -/
theorem run_sets {ps : List First} {defines : List Define} {env env' : CEnv}
    (hdefines : ps.mapM (First.define solve) = some defines)
    (henv : defines.foldlM (assign size) env = some env') (x : Name) :
    (x ∈ ps.map First.var → (env' x).isSome) ∧ (x ∉ ps.map First.var → env' x = env x) := by
  induction ps generalizing defines env with
  | nil =>
      obtain rfl := Option.some.inj hdefines
      obtain rfl := Option.some.inj henv
      exact ⟨fun h => absurd h List.not_mem_nil, fun _ => rfl⟩
  | cons p ps ih =>
      rw [List.mapM_cons] at hdefines
      obtain ⟨define, hdefine, hdefines⟩ := Option.bind_eq_some_iff.mp hdefines
      obtain ⟨rest, hrest, hdefines⟩ := Option.bind_eq_some_iff.mp hdefines
      obtain rfl := Option.some.inj hdefines
      rw [List.foldlM_cons] at henv
      obtain ⟨env₁, hassign, henv⟩ := Option.bind_eq_some_iff.mp henv
      obtain ⟨v, -, rfl⟩ := Option.map_eq_some_iff.mp hassign
      have hvar : define.var = p.var := by
        rw [First.define, solveFor] at hdefine
        split at hdefine
        · obtain ⟨value, -, rfl⟩ := Option.map_eq_some_iff.mp hdefine
          rfl
        · cases hdefine
      obtain ⟨hset, hkept⟩ := ih hrest henv
      by_cases hps : x ∈ ps.map First.var
      · exact ⟨fun _ => hset hps, fun hnot => absurd (List.mem_cons_of_mem _ hps) hnot⟩
      · rw [hkept hps]
        by_cases hx : x = p.var
        · rw [hvar, if_pos hx]
          exact ⟨fun _ => rfl, fun hnot => absurd (hx ▸ List.mem_cons_self) hnot⟩
        · rw [hvar, if_neg hx]
          exact ⟨fun hmem => ((List.mem_cons.mp hmem).elim hx hps).elim, fun _ => rfl⟩

end Run

/-! ## Consistent sizes -/

namespace Transform

variable {solve : Solver} {size : Name → ℤ} {t : Transform}

/-- The dimensions of the from- and then of the to-matrices. -/
def dimensions (t : Transform) : List Dimension :=
  (t.fromDefs ++ t.toDefs).flatMap MatrixDef.dimensions

def firsts (t : Transform) : List First := PbSizeInference.firsts t.dimensions t.configNames 0

/-- A variable of a size formula that is not configured. -/
def SizeVar (t : Transform) (x : Name) : Prop :=
  x ∉ t.configNames ∧ ∃ dim ∈ t.dimensions, x ∈ dim.formula.getFreeVariables

/-- Every size variable occurs alone in a size formula that is linear in it. -/
def Determined (t : Transform) : Prop :=
  ∀ x, t.SizeVar x → ∃ dim ∈ t.dimensions, ∃ a b, Linear dim.formula x a b

/-- The configuration, and integers for the other names. -/
def env (t : Transform) (y : Name → ℤ) : CEnv := fun x => (t.configEnv x).or (some (y x))

/-- Every size formula is the actual size. -/
def Consistent (t : Transform) (size y : Name → ℤ) : Prop :=
  ∀ dim ∈ t.dimensions, evalC (t.env y) dim.formula = some (size dim.call)

/-- The exact solutions of the first formulas, cut. -/
def rounded (t : Transform) (size : Name → ℤ) (x : Name) : ℤ :=
  ((t.firsts.find? fun p => p.var == x).map (First.rounded size)).getD 0

/-- The assertions pass exactly for consistent sizes, and then the values are consistent. -/
structure InfersExactly (solve : Solver) (t : Transform) (size : Name → ℤ) : Prop where
  accepts_iff : t.accepts solve size = true ↔ ∃ y, t.Consistent size y
  values : ∀ env, t.initialized solve size = some env → t.verifyDefines size env = true →
    ∃ y, t.Consistent size y ∧ ∀ x, t.SizeVar x → env x = some (y x)

theorem foldlM_extractDefines (solve : Solver) (ms : List MatrixDef) (s : State) :
    ms.foldlM (MatrixDef.extractDefines solve) s
      = (ms.flatMap MatrixDef.dimensions).foldlM (extractDefine solve) s := by
  induction ms generalizing s with
  | nil => rfl
  | cons m ms ih =>
      rw [List.foldlM_cons, List.flatMap_cons, List.foldlM_append]
      exact congrArg _ (funext ih)

theorem initialized_eq (solve : Solver) (t : Transform) (size : Name → ℤ) :
    t.initialized solve size = (t.firsts.mapM (First.define solve)).bind fun defines =>
      defines.foldlM (assign size) t.configEnv := by
  have hstate : t.extractSizeDefines solve
      = t.dimensions.foldlM (extractDefine solve) ⟨t.configNames, 0, []⟩ := by
    rw [dimensions, ← foldlM_extractDefines, List.foldlM_append]
    rfl
  have hdefines := foldlM_extractDefine solve t.dimensions ⟨t.configNames, 0, []⟩
  rw [← hstate] at hdefines
  have hnil : Option.map (fun defines : List Define => ([] : List Define) ++ defines)
      (t.firsts.mapM (First.define solve)) = t.firsts.mapM (First.define solve) := by
    cases t.firsts.mapM (First.define solve) <;> rfl
  rw [initialized, ← hnil]
  change (t.extractSizeDefines solve).map State.defines
    = (t.firsts.mapM (First.define solve)).map _ at hdefines
  rw [← hdefines]
  cases t.extractSizeDefines solve <;> rfl

theorem verifyDefines_iff {env : CEnv} : t.verifyDefines size env = true ↔
    ∀ dim ∈ t.dimensions, evalC env dim.formula = some (size dim.call) := by
  rw [verifyDefines, ← List.all_append, List.all_eq_true]
  constructor
  · intro h dim hdim
    obtain ⟨m, hm, hdim⟩ := List.mem_flatMap.mp hdim
    exact beq_iff_eq.mp (List.all_eq_true.mp (h m hm) dim hdim)
  · intro h m hm
    exact List.all_eq_true.mpr fun dim hdim =>
      beq_iff_eq.mpr (h dim (List.mem_flatMap.mpr ⟨m, hm, hdim⟩))

theorem accepts_eq_true : t.accepts solve size = true ↔
    ∃ env, t.initialized solve size = some env ∧ t.verifyDefines size env = true := by
  rw [accepts]
  cases t.initialized solve size with
  | none =>
      constructor
      · intro h
        cases h
      · rintro ⟨env, henv, -⟩
        cases henv
  | some env =>
      constructor
      · intro h
        exact ⟨env, rfl, h⟩
      · rintro ⟨env', henv, h⟩
        rw [Option.some.inj henv]
        exact h

/-- A configured name has a value, and no other. -/
theorem configEnv_isSome (t : Transform) (x : Name) :
    (t.configEnv x).isSome ↔ x ∈ t.configNames := by
  rw [configEnv, Option.isSome_map, List.find?_isSome, configNames]
  constructor
  · rintro ⟨item, hitem, h⟩
    obtain ⟨hcfg, hname⟩ := Bool.and_eq_true_iff.mp h
    exact List.mem_map.mpr ⟨item, List.mem_filter.mpr ⟨hitem, hcfg⟩, beq_iff_eq.mp hname⟩
  · intro h
    obtain ⟨item, hitem, hname⟩ := List.mem_map.mp h
    obtain ⟨hitem, hcfg⟩ := List.mem_filter.mp hitem
    exact ⟨item, hitem, Bool.and_eq_true_iff.mpr ⟨hcfg, beq_iff_eq.mpr hname⟩⟩

theorem env_config {x : Name} (h : x ∈ t.configNames) (y : Name → ℤ) :
    t.env y x = t.configEnv x := by
  obtain ⟨v, hv⟩ := Option.isSome_iff_exists.mp ((t.configEnv_isSome x).mpr h)
  rw [env, hv, Option.some_or]

theorem configEnv_eq_none {x : Name} (h : x ∉ t.configNames) : t.configEnv x = none :=
  Option.not_isSome_iff_eq_none.mp fun hs => h ((t.configEnv_isSome x).mp hs)

theorem env_other {x : Name} (h : x ∉ t.configNames) (y : Name → ℤ) :
    t.env y x = some (y x) := by
  rw [env, configEnv_eq_none h, Option.none_or]

/-- A size variable is solved from the formula that `rounded` takes. -/
theorem exists_find (h : t.Determined) {x : Name} (hx : t.SizeVar x) :
    ∃ p ∈ t.firsts, p.var = x ∧ t.firsts.find? (fun q => q.var == x) = some p := by
  obtain ⟨dim, hdim, a, b, hlinear⟩ := h x hx
  obtain ⟨p, hp, hpx⟩ := exists_first (i := 0) hdim (onlyVariable_eq hlinear.free) hx.1
  have hfind : (t.firsts.find? fun q => q.var == x).isSome :=
    List.find?_isSome.mpr ⟨p, hp, beq_iff_eq.mpr hpx⟩
  obtain ⟨q, hq⟩ := Option.isSome_iff_exists.mp hfind
  have hqx : (q.var == x) = true := List.find?_some (p := fun r : First => r.var == x) hq
  exact ⟨q, List.mem_of_find?_eq_some hq, beq_iff_eq.mp hqx, hq⟩

/-- Values that agree on the configuration and on the size variables. -/
theorem evalC_agree {env : CEnv} {y : Name → ℤ} (hconfig : ∀ x ∈ t.configNames,
    env x = t.configEnv x) (hvars : ∀ x, t.SizeVar x → env x = some (y x)) {dim : Dimension}
    (hdim : dim ∈ t.dimensions) : evalC env dim.formula = evalC (t.env y) dim.formula := by
  refine evalC_congr fun x hx => ?_
  by_cases hc : x ∈ t.configNames
  · rw [hconfig x hc, env_config hc]
  · rw [hvars x ⟨hc, dim, hdim, hx⟩, env_other hc]

/-- With any solver, what passes the assertions is consistent. -/
theorem values_consistent (h : t.Determined) {env : CEnv}
    (henv : t.initialized solve size = some env) (hverify : t.verifyDefines size env = true) :
    ∃ y, t.Consistent size y ∧ ∀ x, t.SizeVar x → env x = some (y x) := by
  rw [initialized_eq] at henv
  obtain ⟨defines, hdefines, hrun⟩ := Option.bind_eq_some_iff.mp henv
  have hvars : ∀ x, t.SizeVar x → env x = some ((env x).getD 0) := by
    intro x hx
    obtain ⟨p, hp, rfl, -⟩ := exists_find h hx
    obtain ⟨v, hv⟩ := Option.isSome_iff_exists.mp
      ((run_sets hdefines hrun p.var).1 (List.mem_map_of_mem hp))
    rw [hv]
    rfl
  have hconfig : ∀ x ∈ t.configNames, env x = t.configEnv x := by
    intro x hx
    refine (run_sets hdefines hrun x).2 fun hmem => ?_
    obtain ⟨p, hp, rfl⟩ := List.mem_map.mp hmem
    exact (mem_firsts hp).1 hx
  refine ⟨fun x => (env x).getD 0, fun dim hdim => ?_, hvars⟩
  rw [← evalC_agree hconfig hvars hdim]
  exact verifyDefines_iff.mp hverify dim hdim

/-- **WHICH SIZES ARE ACCEPTED**, if the solver can solve what it is given. -/
theorem accepts_iff_rounded (h : t.Determined) (hexact : Exact solve)
    (hsolvable : ∀ p ∈ t.firsts, p.Solvable) :
    t.accepts solve size = true ↔ t.Consistent size (t.rounded size) := by
  have hcall : ∀ p ∈ t.firsts, isCall p.dim.call = true := by
    intro p hp
    obtain ⟨m, -, hdim⟩ := List.mem_flatMap.mp (mem_firsts hp).2.1
    exact isCall_call hdim
  obtain ⟨defines, env, hdefines, hrun, hvalues⟩ := run_spec size hexact hsolvable hcall
    (nodup_firsts t.dimensions t.configNames 0) t.configEnv
  have henv : t.initialized solve size = some env := by
    rw [initialized_eq, hdefines]
    exact hrun
  have hconfig : ∀ x ∈ t.configNames, env x = t.configEnv x := by
    intro x hx
    rw [hvalues, List.find?_eq_none.mpr, Option.map_none, Option.none_or]
    intro p hp heq
    rw [← beq_iff_eq.mp heq] at hx
    exact (mem_firsts hp).1 hx
  have hvars : ∀ x, t.SizeVar x → env x = some (t.rounded size x) := by
    intro x hx
    obtain ⟨p, -, -, hp⟩ := exists_find h hx
    have hrounded : t.rounded size x = p.rounded size := by
      rw [rounded, hp]
      rfl
    rw [hvalues, hp, hrounded]
    rfl
  rw [accepts_eq_true, henv]
  constructor
  · rintro ⟨env', he, hverify⟩ dim hdim
    obtain rfl := Option.some.inj he
    rw [← evalC_agree hconfig hvars hdim]
    exact verifyDefines_iff.mp hverify dim hdim
  · intro hconsistent
    refine ⟨env, rfl, verifyDefines_iff.mpr fun dim hdim => ?_⟩
    rw [evalC_agree hconfig hvars hdim]
    exact hconsistent dim hdim

/-- Sizes that come without rounding from variables are inferred. -/
theorem consistent_rounded (h : t.Determined) (hsolvable : ∀ p ∈ t.firsts, p.Solvable)
    {y : Name → ℤ} (hy : t.Consistent size y) (hexactly : ∀ p ∈ t.firsts,
      p.dim.formula.eval (only p.var (y p.var)) = some (.num (size p.dim.call))) :
    t.Consistent size (t.rounded size) := by
  have hvars : ∀ x, t.SizeVar x → t.env (t.rounded size) x = some (y x) := by
    intro x hx
    obtain ⟨p, hp, hpx, hfind⟩ := exists_find h hx
    obtain ⟨-, a, b, hlinear⟩ := hsolvable p hp
    have hvalue := hexactly p hp
    rw [hlinear.value, hpx] at hvalue
    have hsize := Value.num.inj (Option.some.inj hvalue)
    have hrounded : t.rounded size x = p.rounded size := by
      rw [rounded, hfind]
      rfl
    rw [env_other hx.1, hrounded, First.rounded, hlinear.solution, ← hsize, add_sub_cancel_right,
      mul_div_cancel_left₀ _ hlinear.slope_ne, truncate_intCast]
  intro dim hdim
  rw [evalC_agree (fun x hx => env_config hx _) hvars hdim]
  exact hy dim hdim

end Transform

/-! ## Two exact solvers -/

/-- The solution over a common denominator, from the values at zero and one. -/
def solveLinear : Solver
  | [.binop .eq (.var tmp) f], x =>
      let b := valueAt f x 0
      let a := valueAt f x 1 - b
      [.binop .eq (.var x) (.binop .div
        (.binop .sub (.binop .mul (.integer (b.den * a.den)) (.var tmp))
          (.integer (b.num * a.den)))
        (.integer (b.den * a.num)))]
  | _, _ => []

theorem exact_solveLinear : Exact solveLinear := by
  intro tmp x f a b hne hlinear
  have hb : valueAt f x 0 = b := by rw [hlinear.valueAt, mul_zero, zero_add]
  have ha : valueAt f x 1 - b = a := by rw [hlinear.valueAt, mul_one, add_sub_cancel_right]
  refine ⟨_, rfl, .quotient (.sub (.mul (.integer _) (.var _)) (.integer _)) _, fun t => ?_⟩
  simp only [hb, ha]
  have hbden : (b.den : ℚ) ≠ 0 := Nat.cast_ne_zero.mpr b.den_nz
  have haden : (a.den : ℚ) ≠ 0 := Nat.cast_ne_zero.mpr a.den_nz
  have hanum : (a.num : ℚ) ≠ 0 := Int.cast_ne_zero.mpr (Rat.num_ne_zero.mpr hlinear.slope_ne)
  have hk : (((b.den : ℤ) * a.num : ℤ) : ℚ) ≠ 0 := by
    rw [Int.cast_mul, Int.cast_natCast]
    exact mul_ne_zero hbden hanum
  have htmp : only tmp t tmp = some (.num t) := if_pos rfl
  have heval : (Formula.binop .div (.binop .sub (.binop .mul (.integer (b.den * a.den))
      (.var tmp)) (.integer (b.num * a.den))) (.integer (b.den * a.num))).eval (only tmp t)
        = some (.num (((((b.den : ℤ) * a.den : ℤ) : ℚ) * t - ((b.num * (a.den : ℤ) : ℤ) : ℚ))
          / (((b.den : ℤ) * a.num : ℤ) : ℚ))) := by
    simp only [Formula.eval, htmp, Option.bind_some, Op.eval, if_neg hk]
  rw [heval]
  refine congrArg (fun q => some (Value.num q)) ?_
  push_cast
  calc ((b.den : ℚ) * a.den * t - b.num * a.den) / (b.den * a.num)
      = (t - b.num / b.den) / (a.num / a.den) := by field_simp
    _ = (t - b) / a := by rw [Rat.num_div_den, Rat.num_div_den]

open Classical in
/-- A solver that gives up if the equation is not linear. -/
noncomputable def solveOnlyLinear : Solver := fun equations x =>
  if ∃ tmp f a b, equations = [.binop .eq (.var tmp) f] ∧ tmp ≠ x ∧ Linear f x a b then
    solveLinear equations x
  else []

theorem exact_solveOnlyLinear : Exact solveOnlyLinear := by
  intro tmp x f a b hne hlinear
  rw [solveOnlyLinear, if_pos ⟨tmp, f, a, b, rfl, hne, hlinear⟩]
  exact exact_solveLinear hne hlinear

theorem solvable_of_define {p : First} (h : (p.define solveOnlyLinear).isSome) : p.Solvable := by
  by_contra hnot
  have hnone : solveOnlyLinear [.binop .eq (.var p.tmp) p.dim.formula] p.var = [] := by
    refine if_neg ?_
    rintro ⟨tmp, f, a, b, heq, hne, hlinear⟩
    cases heq
    exact hnot ⟨hne, a, b, hlinear⟩
  rw [First.define, solveFor, hnone] at h
  cases h

theorem isSome_of_mapM {α β : Type} {f : α → Option β} {l : List α} {bs : List β}
    (h : l.mapM f = some bs) : ∀ a ∈ l, (f a).isSome := by
  induction l generalizing bs with
  | nil =>
      intro a ha
      cases ha
  | cons c l ih =>
      rw [List.mapM_cons] at h
      obtain ⟨d, hd, h⟩ := Option.bind_eq_some_iff.mp h
      obtain ⟨ds, hds, -⟩ := Option.bind_eq_some_iff.mp h
      intro a ha
      rcases List.mem_cons.mp ha with rfl | ha
      · rw [hd]
        rfl
      · exact ih hds a ha

namespace Transform

end Transform

/-! ## `BackSubstitute` -/

def half : Formula := .binop .div (.var "n") (.integer 2)

/-- `from XX[n/2], A[n]` `to X[n]`. -/
def backSubstitute : Transform where
  config := []
  fromDefs := [⟨"XX", [half]⟩, ⟨"A", [.var "n"]⟩]
  toDefs := [⟨"X", [.var "n"]⟩]

/-- The actual sizes. -/
def sized (xx n : ℤ) : Name → ℤ := fun name => if name = "XX.size(0)" then xx else n

theorem linear_half : Linear half "n" (1 / 2) 0 where
  free := rfl
  slope_ne := by norm_num
  value t := by
    show (if (2 : ℤ) = (0 : ℚ) then none else some (Value.num (t / (2 : ℤ)))) = _
    rw [if_neg (by norm_num)]
    refine congrArg (fun q => some (Value.num q)) ?_
    push_cast
    ring

theorem determined_backSubstitute : backSubstitute.Determined := by
  rintro x ⟨-, dim, hdim, hx⟩
  have hfree : ∀ dim ∈ backSubstitute.dimensions, dim.formula.getFreeVariables = {"n"} := by
    decide +kernel
  rw [hfree dim hdim, Finset.mem_singleton] at hx
  rw [hx]
  exact ⟨_, List.mem_cons_self, _, _, linear_half⟩

end PbSizeInference
