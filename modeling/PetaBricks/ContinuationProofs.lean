import PetaBricks.RuleBodyProofs

/-! # Continuations — the member functions run like the structured body

    `Follows` relates what is left to do of a body to the code that is left,
    with the labels that `break` and `continue` go to.  A step of the
    structured body is then a few steps of the member functions, or none where
    a block is entered (`simulation`).

    A function whose label is tested with nothing to test does not compile, so
    the two are the same exactly where every expanded loop has a test
    (`same_runs_iff`). -/

namespace PbRuleBody

open PbSimulation (Machine Simulation Matched Halts)

/-! ## Code for what is left to do -/

/-- The functions of a loop. -/
structure LoopCode (p : Program) (ts : Targets) (testPart incPart : Expr) (body : Block)
    (jbody jinc jafter : Label) : Prop where
  returns_inc : returns incPart = false
  body : ∃ cb d, lookup p jbody = .jumpUnless testPart jafter :: cb ∧
    PrintsBlock p ((jafter, jinc) :: ts) body cb (.jump jinc :: d)
  inc : ∃ d, lookup p jinc = .eval incPart :: .jump jbody :: d

/-- The code does what is left to do, `break` and `continue` going to the first targets. -/
inductive Follows (p : Program) : Targets → List Code → List Frame → Prop
  | done {c} : Follows p [] (.returnVoid :: c) []
  | jump {ts fn c k} : Follows p ts (lookup p fn) k → Follows p ts (.jump fn :: c) k
  | stmt {ts s c c' k} : Prints p ts s c c' → Follows p ts c' k → Follows p ts c (.stmt s :: k)
  | block {ts b c c' k} : PrintsBlock p ts b c c' → Follows p ts c' k →
      Follows p ts c (.block b :: k)
  | test {ts testPart incPart body jbody jinc jafter k} :
      LoopCode p ts testPart incPart body jbody jinc jafter → Follows p ts (lookup p jafter) k →
      Follows p ts (lookup p jbody) (.test testPart incPart body :: k)
  | inc {ts testPart incPart body jbody jinc jafter k} :
      LoopCode p ts testPart incPart body jbody jinc jafter → Follows p ts (lookup p jafter) k →
      Follows p ((jafter, jinc) :: ts) (lookup p jinc) (.inc testPart incPart body :: k)

section Following

variable {p : Program} {ts : Targets} {c : List Code} {k : List Frame} {o : Outcome}
  {history : List Event}

/-- **A BREAK LEAVES THE INNERMOST LOOP.** -/
theorem Follows.leaveLoop {ja ji : Label} (h : Follows p ((ja, ji) :: ts) c k) :
    Follows p ts (lookup p ja) (leaveLoop k) := by
  generalize hts : (ja, ji) :: ts = ts' at h
  induction h with
  | done => cases hts
  | jump _ ih => exact ih hts
  | stmt _ _ ih => exact ih hts
  | block _ _ ih => exact ih hts
  | test _ _ ih => exact ih hts
  | inc _ hk _ =>
      cases hts
      exact hk

/-- **A CONTINUE GOES TO THE INCREMENT OF THE INNERMOST LOOP.** -/
theorem Follows.continueLoop {ja ji : Label} (h : Follows p ((ja, ji) :: ts) c k) :
    Follows p ((ja, ji) :: ts) (lookup p ji) (continueLoop k) := by
  generalize hts : (ja, ji) :: ts = ts' at h
  induction h with
  | done => cases hts
  | jump _ ih => exact ih hts
  | stmt _ _ ih => exact ih hts
  | block _ _ ih => exact ih hts
  | test _ _ ih => exact ih hts
  | inc hloop hk _ =>
      cases hts
      exact .inc hloop hk

/-! ## Statements as they stand -/

theorem Stmt.expanded_eq_false_iff {s : Stmt} : s.expanded = false ↔
    ∀ val ∈ ["SYNC", "CALL", "SPAWN", "break", "continue"], s.containsLeaf val = false := by
  simp only [Stmt.expanded, Bool.or_eq_false_iff, List.mem_cons, List.not_mem_nil, or_false,
    forall_eq_or_imp, forall_eq, and_assoc]

/-- A frame of a statement that is expanded. -/
def Frame.expanded : Frame → Bool
  | .stmt s => s.expanded
  | .block b => (Stmt.block b).expanded
  | .test testPart incPart body => (Stmt.loop [] testPart incPart body).expanded
  | .inc testPart incPart body => (Stmt.loop [] testPart incPart body).expanded

theorem basicStep_of_not_expanded {e : Expr} (he : (Stmt.basic e).expanded = false) :
    basicStep e k history = (if returns e then [] else k, evaluate history e) := by
  rw [Stmt.expanded_eq_false_iff] at he
  simp only [List.mem_cons, List.not_mem_nil, or_false, forall_eq_or_imp, forall_eq,
    Stmt.containsLeaf, decide_eq_false_iff_not] at he
  obtain ⟨hsync, hcall, -, hbrk, hcont⟩ := he
  rw [basicStep, if_neg hbrk, if_neg hcont, if_neg hsync, if_neg hcall]
  split_ifs <;> rfl

/-- Does the frame end the rule. -/
def Frame.returns : Frame → Bool
  | .stmt (.basic e) => PbRuleBody.returns e
  | _ => false

/-- What is behind does not matter to a statement that is not expanded. -/
theorem frameStep_append {f : Frame} (hf : f.expanded = false) (hret : f.returns = false)
    (raw : List Frame) :
    frameStep o f (raw ++ k) history =
      ((frameStep o f raw history).1 ++ k, (frameStep o f raw history).2) := by
  match f with
  | .stmt (.basic e) =>
      change PbRuleBody.returns e = false at hret
      simp only [frameStep, basicStep_of_not_expanded hf, hret, Bool.false_eq_true, if_false]
  | .stmt (.cond condPart thenPart) =>
      simp only [frameStep]
      split_ifs <;> rfl
  | .stmt (.condElse _ _ _) => rfl
  | .stmt (.loop _ _ _ _) => rfl
  | .stmt (.block _) => rfl
  | .block .nil => rfl
  | .block (.cons _ _) => rfl
  | .test _ _ _ =>
      simp only [frameStep]
      split_ifs <;> rfl
  | .inc _ _ _ => rfl

/-- The parts of a statement that is not expanded are not, either. -/
theorem frameStep_expanded {f : Frame} (hf : f.expanded = false) {raw : List Frame}
    (hraw : ∀ f ∈ raw, f.expanded = false) :
    ∀ f' ∈ (frameStep o f raw history).1, f'.expanded = false := by
  match f with
  | .stmt (.basic e) =>
      simp only [frameStep, basicStep_of_not_expanded hf]
      split_ifs
      · exact nofun
      · exact hraw
  | .stmt (.cond condPart thenPart) =>
      have hthen : (Stmt.block thenPart).expanded = false := by
        simp only [Frame.expanded, Stmt.expanded_eq_false_iff, Stmt.containsLeaf,
          Bool.or_eq_false_iff] at hf ⊢
        exact fun val hval => (hf val hval).2
      simp only [frameStep]
      split_ifs
      · exact List.forall_mem_cons.mpr ⟨hthen, hraw⟩
      · exact hraw
  | .stmt (.condElse condPart thenPart elsePart) =>
      have hparts : (Stmt.block thenPart).expanded = false ∧
          (Stmt.block elsePart).expanded = false := by
        simp only [Frame.expanded, Stmt.expanded_eq_false_iff, Stmt.containsLeaf,
          Bool.or_eq_false_iff] at hf ⊢
        exact ⟨fun val hval => (hf val hval).1.2, fun val hval => (hf val hval).2⟩
      simp only [frameStep]
      refine List.forall_mem_cons.mpr ⟨?_, hraw⟩
      split_ifs
      · exact hparts.1
      · exact hparts.2
  | .stmt (.loop declPart testPart incPart body) =>
      refine List.forall_mem_cons.mpr ⟨?_, hraw⟩
      simp only [Frame.expanded, Stmt.expanded_eq_false_iff, Stmt.containsLeaf,
        Bool.or_eq_false_iff] at hf ⊢
      exact fun val hval => ⟨⟨⟨by simp, (hf val hval).1.1.2⟩, (hf val hval).1.2⟩, (hf val hval).2⟩
  | .stmt (.block b) => exact List.forall_mem_cons.mpr ⟨hf, hraw⟩
  | .block .nil => exact hraw
  | .block (.cons s rest) =>
      have hparts : s.expanded = false ∧ (Stmt.block rest).expanded = false := by
        simp only [Frame.expanded, Stmt.expanded_eq_false_iff, Stmt.containsLeaf,
          Block.containsLeaf, Bool.or_eq_false_iff] at hf ⊢
        exact ⟨fun val hval => (hf val hval).1, fun val hval => (hf val hval).2⟩
      exact List.forall_mem_cons.mpr ⟨hparts.1, List.forall_mem_cons.mpr ⟨hparts.2, hraw⟩⟩
  | .test testPart incPart body =>
      have hbody : (Stmt.block body).expanded = false := by
        simp only [Frame.expanded, Stmt.expanded_eq_false_iff, Stmt.containsLeaf,
          Bool.or_eq_false_iff] at hf ⊢
        exact fun val hval => (hf val hval).2
      simp only [frameStep]
      split_ifs
      · exact List.forall_mem_cons.mpr ⟨hbody, List.forall_mem_cons.mpr ⟨hf, hraw⟩⟩
      · exact hraw
  | .inc _ _ _ => exact List.forall_mem_cons.mpr ⟨hf, hraw⟩

end Following

/-! ## The simulation -/

/-- The code does what is left to do, a statement that stands there as it is being under way. -/
inductive Related (p : Program) : List Frame × List Event → Position × List Event → Prop
  | ended {history} : Related p ([], history) (⟨[], []⟩, history)
  | going {raw ts c k history} : (∀ f ∈ raw, f.expanded = false) → Follows p ts c k →
      Related p (raw ++ k, history) (⟨raw, c⟩, history)

mutual

/-- The blocks that are entered without a step of the member functions. -/
def Stmt.weight : Stmt → Nat
  | .block b => b.weight + 1
  | _ => 1

def Block.weight : Block → Nat
  | .nil => 1
  | .cons s rest => s.weight + rest.weight + 1

end

def Frame.weight : Frame → Nat
  | .stmt s => s.weight
  | .block b => b.weight
  | _ => 1

/-- What falls where a block is entered or left. -/
def weight (s : List Frame × List Event) : Nat := (s.1.map Frame.weight).sum

section Stepping

variable {p : Program} {ts : Targets} {c : List Code} {k : List Frame} {o : Outcome}
  {history : List Event}

theorem Related.follows (h : Follows p ts c k) : Related p (k, history) (⟨[], c⟩, history) :=
  .going (List.forall_mem_nil _) h

theorem weight_cons (f : Frame) (history' : List Event) :
    weight (f :: k, history) = f.weight + weight (k, history') := rfl

abbrev Steps (p : Program) (o : Outcome) :=
  Matched (structured o) (emitted p o) (Related p) weight

/-- A statement as it stands. -/
theorem steps_raw {f : Frame} {raw : List Frame} (hf : f.expanded = false)
    (hraw : ∀ f ∈ raw, f.expanded = false) (h : Follows p ts c k) :
    Steps p o (f :: (raw ++ k), history) (frameStep o f (raw ++ k) history)
      (⟨f :: raw, c⟩, history) := by
  by_cases hret : f.returns = true
  · match f, hret with
    | .stmt (.basic e), hret =>
      change PbRuleBody.returns e = true at hret
      have hstep : frameStep o (.stmt (.basic e)) (raw ++ k) history =
          ([], evaluate history e) := by
        rw [frameStep, basicStep_of_not_expanded hf, if_pos hret]
      have hnext : (emitted p o).next (⟨.stmt (.basic e) :: raw, c⟩, history) =
          some (⟨[], []⟩, evaluate history e) := by
        show some (rawStep o _ raw c history) = _
        rw [rawStep, if_pos hret]
      rw [hstep]
      exact .once hnext .ended (.inl rfl) rfl
  · rw [Bool.not_eq_true] at hret
    rw [frameStep_append hf hret]
    have hnext : (emitted p o).next (⟨f :: raw, c⟩, history) =
        some (⟨(frameStep o f raw history).1, c⟩, (frameStep o f raw history).2) := by
      show some (rawStep o f raw c history) = _
      match f, hret with
      | .stmt (.basic e), hret =>
          change PbRuleBody.returns e = false at hret
          rw [rawStep, hret, if_neg Bool.false_ne_true]
      | .stmt (.cond _ _), _ => rfl
      | .stmt (.condElse _ _ _), _ => rfl
      | .stmt (.loop _ _ _ _), _ => rfl
      | .stmt (.block _), _ => rfl
      | .block _, _ => rfl
      | .test _ _ _, _ => rfl
      | .inc _ _ _, _ => rfl
    exact .once hnext (.going (frameStep_expanded hf hraw) h) (.inl rfl) rfl

/-- A block needs no step of its own. -/
theorem steps_block {b : Block} {c' : List Code} (hb : PrintsBlock p ts b c c')
    (h : Follows p ts c' k) :
    Steps p o (.block b :: k, history) (frameStep o (.block b) k history) (⟨[], c⟩, history) := by
  cases hb with
  | nil =>
      refine .stay (.follows h) rfl ?_
      rw [weight_cons _ history]
      exact Nat.lt_add_of_pos_left Nat.one_pos
  | cons hs hrest =>
      refine .stay (.follows (.stmt hs (.block hrest h))) rfl ?_
      simp only [frameStep, weight_cons _ history, Frame.weight, Block.weight]
      omega

/-- An expression that is printed as it stands, and does not end the rule. -/
theorem next_eval {e : Expr} (hret : returns e = false) :
    (emitted p o).next (⟨[], .eval e :: c⟩, history) = some (⟨[], c⟩, evaluate history e) := by
  show some (codeStep p o (.eval e) c history) = _
  rw [codeStep, hret, if_neg Bool.false_ne_true]

theorem next_jumpUnless {e : Expr} {fn : Label} (h : (test o history e).1 = true) :
    (emitted p o).next (⟨[], .jumpUnless e fn :: c⟩, history) =
      some (⟨[], c⟩, (test o history e).2) := by
  show some (codeStep p o (.jumpUnless e fn) c history) = _
  simp only [codeStep, h, if_true]

theorem next_jumpUnless_false {e : Expr} {fn : Label} (h : (test o history e).1 = false) :
    (emitted p o).next (⟨[], .jumpUnless e fn :: c⟩, history) =
      some (⟨[], lookup p fn⟩, (test o history e).2) := by
  show some (codeStep p o (.jumpUnless e fn) c history) = _
  simp only [codeStep, h, Bool.false_eq_true, if_false]
  rfl

theorem prints_sync {n : Label} : Prints p ts (.basic ["SYNC"]) (.syncHook n :: c) (lookup p n) :=
  .sync (by decide) (by decide) (by decide)

theorem steps_returns {e : Expr} {s : List Frame × List Event} (hret : returns e = true)
    (hs : s.2 = history) : Steps p o s ([], evaluate history e) (⟨[], .eval e :: c⟩, history) := by
  refine .once ?_ .ended (.inl hs.symm) rfl
  show some (codeStep p o (.eval e) c history) = _
  rw [codeStep, if_pos hret]

theorem steps_stmt {s : Stmt} {c' : List Code} (hs : Prints p ts s c c') (h : Follows p ts c' k) :
    Steps p o (.stmt s :: k, history) (frameStep o (.stmt s) k history) (⟨[], c⟩, history) := by
  cases hs with
  | brk hbrk =>
      simp only [frameStep, basicStep, if_pos hbrk]
      exact .once rfl (.follows h.leaveLoop) (.inl rfl) rfl
  | cont hbrk hcont =>
      simp only [frameStep, basicStep, if_neg hbrk, if_pos hcont]
      exact .once rfl (.follows h.continueLoop) (.inl rfl) rfl
  | sync hbrk hcont hsync =>
      simp only [frameStep, basicStep, if_neg hbrk, if_neg hcont, if_pos hsync]
      exact .once rfl (.follows h) (.inl rfl) rfl
  | @call _ e n d hbrk hcont hsync hcall =>
      simp only [frameStep, basicStep, if_neg hbrk, if_neg hcont, if_neg hsync, if_pos hcall]
      by_cases hret : returns e = true
      · rw [if_pos hret]
        exact steps_returns hret rfl
      · rw [if_neg hret]
        rw [Bool.not_eq_true] at hret
        exact .once (next_eval hret) (.follows (.stmt prints_sync h)) (.inl rfl) rfl
  | @spawn _ e n d hbrk hcont hsync hcall =>
      simp only [frameStep, basicStep, if_neg hbrk, if_neg hcont, if_neg hsync, if_neg hcall]
      by_cases hret : returns e = true
      · rw [if_pos hret]
        exact steps_returns hret rfl
      · rw [if_neg hret]
        rw [Bool.not_eq_true] at hret
        -- the expression is shown before the continuation is run
        exact .cons (next_eval hret) (.inl rfl) (.once rfl (.follows h) (.inr rfl) rfl)
  | @plain _ e _ hbrk hcont hsync hcall =>
      simp only [frameStep, basicStep, if_neg hbrk, if_neg hcont, if_neg hsync, if_neg hcall]
      by_cases hret : returns e = true
      · rw [if_pos hret]
        exact steps_returns hret rfl
      · rw [if_neg hret]
        rw [Bool.not_eq_true] at hret
        exact .once (next_eval hret) (.follows h) (.inl rfl) rfl
  | raw hraw =>
      have hframe : (Frame.stmt s).expanded = false := hraw
      exact .cons rfl (.inl rfl) (steps_raw hframe (List.forall_mem_nil _) h)
  | @cond _ condPart thenPart jthen jafter d d' hthen =>
      simp only [frameStep]
      cases houtcome : (test o history condPart).1 with
      | true =>
          rw [if_pos rfl]
          refine .cons (next_jumpUnless houtcome) (.inl rfl) ?_
          exact .once rfl (.follows (.block hthen (.jump h))) (.inr rfl) rfl
      | false =>
          rw [if_neg Bool.false_ne_true]
          exact .once (next_jumpUnless_false houtcome) (.follows h) (.inl rfl) rfl
  | @condElse _ condPart thenPart elsePart jthen jelse jafter d d' d'' hthen helse =>
      simp only [frameStep]
      cases houtcome : (test o history condPart).1 with
      | true =>
          rw [if_pos rfl]
          refine .cons (next_jumpUnless houtcome) (.inl rfl) ?_
          exact .once rfl (.follows (.block hthen (.jump h))) (.inr rfl) rfl
      | false =>
          rw [if_neg Bool.false_ne_true]
          exact .once (next_jumpUnless_false houtcome) (.follows (.block helse (.jump h))) (.inl rfl) rfl
  | @loop _ declPart testPart incPart body jbody jinc jafter d cb d' d'' hdecl hinc htest hbody hjinc =>
      have hloop : LoopCode p ts testPart incPart body jbody jinc jafter :=
        ⟨hinc, ⟨cb, d', htest, hbody⟩, ⟨d'', hjinc⟩⟩
      exact .once (next_eval hdecl) (.follows (.jump (.test hloop h))) (.inl rfl) rfl
  | block hb =>
      refine .stay (.follows (.block hb h)) rfl ?_
      simp only [frameStep, weight_cons _ history, Frame.weight, Stmt.weight]
      omega

/-- A loop is tested, with its body to be run or not. -/
theorem steps_test {testPart incPart : Expr} {body : Block} {jbody jinc jafter : Label}
    (hloop : LoopCode p ts testPart incPart body jbody jinc jafter)
    (h : Follows p ts (lookup p jafter) k) :
    Steps p o (.test testPart incPart body :: k, history)
      (frameStep o (.test testPart incPart body) k history) (⟨[], lookup p jbody⟩, history) := by
  obtain ⟨cb, d, hjbody, hbody⟩ := hloop.body
  rw [hjbody]
  simp only [frameStep]
  cases houtcome : (test o history testPart).1 with
  | true =>
      rw [if_pos rfl]
      exact .once (next_jumpUnless houtcome)
        (.follows (.block hbody (.jump (.inc hloop h)))) (.inl rfl) rfl
  | false =>
      rw [if_neg Bool.false_ne_true]
      exact .once (next_jumpUnless_false houtcome) (.follows h) (.inl rfl) rfl

theorem steps_inc {testPart incPart : Expr} {body : Block} {jbody jinc jafter : Label}
    (hloop : LoopCode p ts testPart incPart body jbody jinc jafter)
    (h : Follows p ts (lookup p jafter) k) :
    Steps p o (.inc testPart incPart body :: k, history)
      (frameStep o (.inc testPart incPart body) k history) (⟨[], lookup p jinc⟩, history) := by
  obtain ⟨d, hjinc⟩ := hloop.inc
  rw [hjinc]
  exact .once (next_eval hloop.returns_inc) (.follows (.jump (.test hloop h))) (.inl rfl) rfl

/-- **ONE STEP** of what is left to do. -/
theorem Follows.steps {f : Frame} (h : Follows p ts c (f :: k)) :
    Steps p o (f :: k, history) (frameStep o f k history) (⟨[], c⟩, history) := by
  generalize hk : f :: k = k' at h
  induction h with
  | done => cases hk
  | jump _ ih => exact .cons rfl (.inl rfl) (hk ▸ ih hk)
  | stmt hs h _ =>
      cases hk
      exact steps_stmt hs h
  | block hb h _ =>
      cases hk
      exact steps_block hb h
  | test hloop h _ =>
      cases hk
      exact steps_test hloop h
  | inc hloop h _ =>
      cases hk
      exact steps_inc hloop h

/-- Where nothing is left to do, the functions return. -/
theorem Follows.halts (h : Follows p ts c k) (hk : k = []) :
    Halts (emitted p o) history (⟨[], c⟩, history) := by
  induction h with
  | done => exact .later rfl rfl (.now rfl)
  | jump _ ih => exact .later rfl rfl (ih hk)
  | stmt => cases hk
  | block => cases hk
  | test => cases hk
  | inc => cases hk

end Stepping

/-- **THE MEMBER FUNCTIONS SIMULATE THE BODY.** -/
def simulation (p : Program) (o : Outcome) : Simulation (structured o) (emitted p o) where
  R := Related p
  measure := weight
  obs_eq h := by
    cases h <;> rfl
  step h hnext := by
    cases h with
    | ended => cases hnext
    | @going raw ts c k history hraw h =>
        cases raw with
        | nil =>
            cases k with
            | nil => cases hnext
            | cons f k =>
                obtain rfl := Option.some.inj hnext
                exact h.steps
        | cons f raw =>
            obtain rfl := Option.some.inj hnext
            obtain ⟨hf, hraw⟩ := List.forall_mem_cons.mp hraw
            exact steps_raw hf hraw h
  stop h hnext := by
    cases h with
    | ended => exact .now rfl
    | @going raw ts c k history hraw h =>
        cases raw with
        | nil =>
            cases k with
            | nil => exact h.halts rfl
            | cons f k => cases hnext
        | cons f raw => cases hnext


/-! ## The generator prints something -/

theorem beforeBasic_isSome {dc inLoop : Bool} {ts : Targets} {e : Expr} (g : CodeGenerator)
    (hl : (Stmt.basic e).Legal inLoop) (hts : inLoop = true → ts ≠ []) :
    ∃ g', beforeBasic dc ts e g = some g' := by
  rw [beforeBasic]
  split_ifs with hbrk hcont hsync hcall hspawn
  · obtain ⟨t, ts, rfl⟩ := List.exists_cons_of_ne_nil (hts (hl (.inl hbrk)))
    exact ⟨_, rfl⟩
  · obtain ⟨t, ts, rfl⟩ := List.exists_cons_of_ne_nil (hts (hl (.inr hcont)))
    exact ⟨_, rfl⟩
  all_goals exact ⟨_, rfl⟩

mutual

theorem Stmt.exists_before {dc inLoop : Bool} {ts : Targets} :
    ∀ (s : Stmt) (g : CodeGenerator), s.Legal inLoop → (inLoop = true → ts ≠ []) →
      ∃ g', s.before dc ts g = some g'
  | .basic e, g, hl, hts => beforeBasic_isSome g hl hts
  | .cond condPart thenPart, g, hl, hts => by
      by_cases hx : (Stmt.cond condPart thenPart).expanded = true
      · rw [Stmt.before_cond hx]
        obtain ⟨g₁, hthen⟩ := thenPart.exists_accept (((g.skip 3).write
          (.jumpUnless condPart (.cont "after_" (g.contCounter + 2)))).continueLabel
            (.cont "then_" g.contCounter)) hl.2 hts
        rw [hthen]
        exact ⟨_, rfl⟩
      · rw [Stmt.before, if_neg hx]
        exact ⟨_, rfl⟩
  | .condElse condPart thenPart elsePart, g, hl, hts => by
      by_cases hx : (Stmt.condElse condPart thenPart elsePart).expanded = true
      · rw [Stmt.before_condElse hx]
        obtain ⟨g₁, hthen⟩ := thenPart.exists_accept (((g.skip 3).write
          (.jumpUnless condPart (.cont "else_" (g.contCounter + 1)))).continueLabel
            (.cont "then_" g.contCounter)) hl.2.1 hts
        obtain ⟨g₂, helse⟩ := elsePart.exists_accept ((g₁.continueJump
          (.cont "after_" (g.contCounter + 2))).continueLabel
            (.cont "else_" (g.contCounter + 1))) hl.2.2 hts
        rw [hthen, Option.bind_some, helse]
        exact ⟨_, rfl⟩
      · rw [Stmt.before, if_neg hx]
        exact ⟨_, rfl⟩
  | .loop declPart testPart incPart body, g, hl, hts => by
      by_cases hx : (Stmt.loop declPart testPart incPart body).expanded = true
      · rw [Stmt.before_loop hx]
        obtain ⟨g₁, hbody⟩ := body.exists_accept ((((g.skip 3).write
          (.eval declPart)).continueLabel (.cont "loopbody_" g.contCounter)).write
            (.jumpUnless testPart (.cont "after_" (g.contCounter + 2)))) hl.2.2
              (fun _ => List.cons_ne_nil _ _)
        rw [hbody]
        exact ⟨_, rfl⟩
      · rw [Stmt.before, if_neg hx]
        exact ⟨_, rfl⟩
  | .block b, g, hl, hts => by
      rw [Stmt.before]
      split_ifs
      · exact b.exists_accept g hl hts
      · exact ⟨_, rfl⟩

theorem Block.exists_accept {dc inLoop : Bool} {ts : Targets} :
    ∀ (b : Block) (g : CodeGenerator), b.Legal inLoop → (inLoop = true → ts ≠ []) →
      ∃ g', b.accept dc ts g = some g'
  | .nil, g, _, _ => ⟨g, rfl⟩
  | .cons s rest, g, hl, hts => by
      obtain ⟨g₁, hs⟩ := s.exists_before g hl.1 hts
      obtain ⟨g₂, hrest⟩ := rest.exists_accept g₁ hl.2 hts
      refine ⟨g₂, ?_⟩
      rw [Block.accept, hs]
      exact hrest

end

/-! ## What compiles -/

section Compiling

variable {g : CodeGenerator} {c : Code} {fn : Label}

theorem compiles_write : Compiles (g.write c).endFunc ↔ Compiles g.endFunc ∧ c.compiles = true := by
  simp only [Compiles, CodeGenerator.endFunc, CodeGenerator.write, List.forall_mem_append,
    List.forall_mem_singleton, and_assoc]

theorem compiles_eval {e : Expr} : Compiles (g.write (.eval e)).endFunc ↔ Compiles g.endFunc :=
  compiles_write.trans (and_iff_left rfl)

theorem compiles_beginFunc : Compiles (g.beginFunc fn).endFunc ↔ Compiles g.endFunc := by
  simp only [Compiles, CodeGenerator.beginFunc, CodeGenerator.endFunc, List.forall_mem_append,
    List.forall_mem_singleton, List.not_mem_nil, false_imp_iff, implies_true, and_true]

theorem compiles_continueJump : Compiles (g.continueJump fn).endFunc ↔ Compiles g.endFunc :=
  compiles_write.trans (and_iff_left rfl)

theorem compiles_continueLabel : Compiles (g.continueLabel fn).endFunc ↔ Compiles g.endFunc :=
  compiles_beginFunc.trans compiles_continueJump

theorem compiles_continuationRequired :
    Compiles g.continuationRequired.endFunc ↔ Compiles g.endFunc :=
  compiles_beginFunc.trans (compiles_write.trans (and_iff_left rfl))

theorem compiles_continuationPoint {dc : Bool} :
    Compiles (g.continuationPoint dc).endFunc ↔ Compiles g.endFunc := by
  cases dc with
  | true => exact Iff.rfl
  | false => exact compiles_beginFunc.trans (compiles_write.trans (and_iff_left rfl))

end Compiling

mutual

/-- Nothing needs a test where nothing is expanded. -/
theorem Stmt.tested_of_not_expanded : ∀ {s : Stmt}, s.expanded = false → s.Tested
  | .basic _, _ => trivial
  | .cond condPart thenPart, hs => by
      refine thenPart.tested_of_not_expanded ?_
      rw [Stmt.expanded_eq_false_iff] at hs ⊢
      intro val hval
      exact (Bool.or_eq_false_iff.mp (hs val hval)).2
  | .condElse condPart thenPart elsePart, hs => by
      rw [Stmt.expanded_eq_false_iff] at hs
      refine ⟨thenPart.tested_of_not_expanded ?_, elsePart.tested_of_not_expanded ?_⟩
      · rw [Stmt.expanded_eq_false_iff]
        intro val hval
        exact (Bool.or_eq_false_iff.mp (Bool.or_eq_false_iff.mp (hs val hval)).1).2
      · rw [Stmt.expanded_eq_false_iff]
        intro val hval
        exact (Bool.or_eq_false_iff.mp (hs val hval)).2
  | .loop declPart testPart incPart body, hs => by
      refine ⟨fun hx => absurd (hs.symm.trans hx) Bool.false_ne_true, ?_⟩
      refine body.tested_of_not_expanded ?_
      rw [Stmt.expanded_eq_false_iff] at hs ⊢
      intro val hval
      exact (Bool.or_eq_false_iff.mp (hs val hval)).2
  | .block b, hs => b.tested_of_not_expanded hs

theorem Block.tested_of_not_expanded : ∀ (b : Block), (Stmt.block b).expanded = false → b.Tested
  | .nil, _ => trivial
  | .cons s rest, hs => by
      rw [Stmt.expanded_eq_false_iff] at hs
      refine ⟨Stmt.tested_of_not_expanded ?_, rest.tested_of_not_expanded ?_⟩
      · rw [Stmt.expanded_eq_false_iff]
        intro val hval
        exact (Bool.or_eq_false_iff.mp (hs val hval)).1
      · rw [Stmt.expanded_eq_false_iff]
        intro val hval
        exact (Bool.or_eq_false_iff.mp (hs val hval)).2

end

/-- What is printed as it stands compiles. -/
theorem compiles_raw {g g' : CodeGenerator} {s : Stmt} (hx : ¬ s.expanded = true)
    (h : some (g.write (.write s)) = some g') :
    Compiles g'.endFunc ↔ Compiles g.endFunc ∧ s.Tested := by
  obtain rfl := Option.some.inj h
  rw [Bool.not_eq_true] at hx
  exact compiles_write.trans (and_congr_right' (iff_of_true rfl (s.tested_of_not_expanded hx)))

theorem beforeBasic_compiles {dc : Bool} {ts : Targets} {e : Expr} {g g' : CodeGenerator}
    (h : beforeBasic dc ts e g = some g') : Compiles g'.endFunc ↔ Compiles g.endFunc := by
  rw [beforeBasic] at h
  split_ifs at h with hbrk hcont hsync hcall hspawn
  · obtain ⟨t, -, rfl⟩ := Option.map_eq_some_iff.mp h
    exact compiles_continueJump
  · obtain ⟨t, -, rfl⟩ := Option.map_eq_some_iff.mp h
    exact compiles_continueJump
  · obtain rfl := Option.some.inj h
    exact compiles_continuationRequired
  · obtain rfl := Option.some.inj h
    exact compiles_continuationRequired.trans compiles_eval
  · obtain rfl := Option.some.inj h
    exact compiles_continuationPoint.trans compiles_eval
  · obtain rfl := Option.some.inj h
    exact compiles_eval

theorem compiles_jumpUnless {e : Expr} {fn : Label} :
    (Code.jumpUnless e fn).compiles = true ↔ e ≠ [] :=
  decide_eq_true_iff

mutual

theorem Stmt.before_compiles {dc inLoop : Bool} {ts : Targets} :
    ∀ (s : Stmt) {g g' : CodeGenerator}, s.Legal inLoop → s.before dc ts g = some g' →
      (Compiles g'.endFunc ↔ Compiles g.endFunc ∧ s.Tested)
  | .basic e, g, g', _, h => (beforeBasic_compiles h).trans (and_iff_left trivial).symm
  | .cond condPart thenPart, g, g', hl, h => by
      by_cases hx : (Stmt.cond condPart thenPart).expanded = true
      · rw [Stmt.before_cond hx] at h
        obtain ⟨g₁, hthen, h⟩ := Option.bind_eq_some_iff.mp h
        obtain rfl := Option.some.inj h
        rw [compiles_continueLabel, thenPart.accept_compiles hl.2 hthen, compiles_continueLabel,
          compiles_write, compiles_jumpUnless, and_iff_left hl.1]
        rfl
      · rw [Stmt.before, if_neg hx] at h
        exact compiles_raw hx h
  | .condElse condPart thenPart elsePart, g, g', hl, h => by
      by_cases hx : (Stmt.condElse condPart thenPart elsePart).expanded = true
      · rw [Stmt.before_condElse hx] at h
        obtain ⟨g₁, hthen, h⟩ := Option.bind_eq_some_iff.mp h
        obtain ⟨g₂, helse, h⟩ := Option.bind_eq_some_iff.mp h
        obtain rfl := Option.some.inj h
        rw [compiles_continueLabel, elsePart.accept_compiles hl.2.2 helse, compiles_continueLabel,
          compiles_continueJump, thenPart.accept_compiles hl.2.1 hthen, compiles_continueLabel,
          compiles_write, compiles_jumpUnless, and_iff_left hl.1, and_assoc]
        rfl
      · rw [Stmt.before, if_neg hx] at h
        exact compiles_raw hx h
  | .loop declPart testPart incPart body, g, g', hl, h => by
      by_cases hx : (Stmt.loop declPart testPart incPart body).expanded = true
      · rw [Stmt.before_loop hx] at h
        obtain ⟨g₁, hbody, h⟩ := Option.bind_eq_some_iff.mp h
        obtain rfl := Option.some.inj h
        rw [compiles_continueLabel, compiles_continueJump, compiles_eval, compiles_continueLabel,
          body.accept_compiles hl.2.2 hbody, compiles_write, compiles_jumpUnless,
          compiles_continueLabel, compiles_eval, and_assoc, Stmt.Tested, imp_iff_right hx]
        rfl
      · rw [Stmt.before, if_neg hx] at h
        exact compiles_raw hx h
  | .block b, g, g', hl, h => by
      rw [Stmt.before] at h
      by_cases hx : (Stmt.block b).expanded = true
      · rw [if_pos hx] at h
        exact b.accept_compiles hl h
      · rw [if_neg hx] at h
        exact compiles_raw hx h

/-- **IT COMPILES** exactly where the loops that are expanded have a test. -/
theorem Block.accept_compiles {dc inLoop : Bool} {ts : Targets} :
    ∀ (b : Block) {g g' : CodeGenerator}, b.Legal inLoop → b.accept dc ts g = some g' →
      (Compiles g'.endFunc ↔ Compiles g.endFunc ∧ b.Tested)
  | .nil, g, g', _, h => by
      obtain rfl := Option.some.inj h
      exact (and_iff_left trivial).symm
  | .cons s rest, g, g', hl, h => by
      obtain ⟨g₁, hs, h⟩ := Option.bind_eq_some_iff.mp h
      rw [rest.accept_compiles hl.2 h, s.before_compiles hl.1 hs, and_assoc]
      rfl

end

/-! ## The same runs -/

/-- What is left to do of a body before its first step, and the function that is called. -/
theorem related_start {dc : Bool} {n : Nat} {b : Block} {p : Program} (hl : b.Legal false)
    (hp : generate dc n b = some p) (history : List Event) :
    Related p ([.block b], history) (.start p .runDynamic, history) := by
  obtain ⟨g, hg, hp⟩ := Option.bind_eq_some_iff.mp hp
  obtain rfl := Option.some.inj hp
  obtain ⟨hin, hreturn⟩ := (inProgram_generate hg).of_write
  obtain ⟨-, hprints⟩ := b.accept_prints hl hg hin
  rw [hreturn] at hprints
  exact .follows (.block hprints .done)

/-- **CONTINUATION EXPANSION PRESERVES CONTROL FLOW**, and compiles, exactly where every loop that
    is expanded has a test: on the way the same is evaluated, and at the end. -/
theorem same_runs_iff (disableContinuations : Bool) (contCounter : Nat) {b : Block}
    (hl : b.Legal false) :
    (∃ p, generate disableContinuations contCounter b = some p ∧ Compiles p ∧
      ∀ (o : Outcome) (history seen : List Event),
        ((structured o).Shows ([.block b], history) seen ↔
          (emitted p o).Shows (.start p .runDynamic, history) seen) ∧
        ((structured o).Stops ([.block b], history) seen ↔
          (emitted p o).Stops (.start p .runDynamic, history) seen)) ↔ b.Tested := by
  obtain ⟨g, hg⟩ := b.exists_accept ⟨[], .runDynamic, [], contCounter⟩ hl
    (fun h => absurd h Bool.false_ne_true)
  have hgen : generate disableContinuations contCounter b =
      some (g.write .returnVoid).endFunc := by
    rw [generate, hg]
    rfl
  have hcompiles : Compiles (g.write .returnVoid).endFunc ↔ b.Tested := by
    have hreturn : Code.returnVoid.compiles = true := rfl
    rw [compiles_write, and_iff_left hreturn, b.accept_compiles hl hg]
    refine and_iff_right ?_
    intro f hf c hc
    obtain rfl := List.mem_singleton.mp hf
    exact nomatch hc
  constructor
  · rintro ⟨p, hp, hc, -⟩
    obtain rfl := Option.some.inj (hgen.symm.trans hp)
    exact hcompiles.mp hc
  · intro htested
    refine ⟨_, hgen, hcompiles.mpr htested, ?_⟩
    intro o history seen
    have hstart := related_start hl hgen history
    exact ⟨(simulation _ o).shows_iff hstart seen, (simulation _ o).stops_iff hstart seen⟩

/-- `for(int i = 0; i < n; i = i + 1) { while(more()) { CALL(f); if(done()) { break; } SYNC(); } }`
    -/
def nestedLoops : Block :=
  .cons (.loop ["int", "i", "0"] ["i", "n"] ["i", "i", "1"] (.cons (.loop [] ["more"] []
    (.cons (.basic ["CALL", "f"]) (.cons (.cond ["done"] (.cons (.basic ["break"]) .nil))
      (.cons (.basic ["SYNC"]) .nil)))) .nil)) .nil

theorem same_runs_nestedLoops :
    nestedLoops.Legal false ∧
      ((∃ p, generate false 7 nestedLoops = some p ∧ Compiles p ∧
        ∀ (o : Outcome) (history seen : List Event),
          ((structured o).Shows ([.block nestedLoops], history) seen ↔
            (emitted p o).Shows (.start p .runDynamic, history) seen) ∧
          ((structured o).Stops ([.block nestedLoops], history) seen ↔
            (emitted p o).Stops (.start p .runDynamic, history) seen)) ↔ nestedLoops.Tested) := by
  have hl : nestedLoops.Legal false := by
    simp [nestedLoops, Block.Legal, Stmt.Legal, returns]
  exact ⟨hl, same_runs_iff false 7 hl⟩

/-- `for(;;) { x = f(x); if(x) { break; } }` -/
def untestedLoop : Block :=
  .cons (.loop [] [] [] (.cons (.basic ["x", "f", "x"])
    (.cons (.cond ["x"] (.cons (.basic ["break"]) .nil)) .nil))) .nil

/-- What is printed for it has an empty condition. -/
theorem untestedLoop_not_compiles :
    untestedLoop.Legal false ∧
      ¬ ∃ p, generate false 0 untestedLoop = some p ∧ Compiles p ∧
        ∀ (o : Outcome) (history seen : List Event),
          ((structured o).Shows ([.block untestedLoop], history) seen ↔
            (emitted p o).Shows (.start p .runDynamic, history) seen) ∧
          ((structured o).Stops ([.block untestedLoop], history) seen ↔
            (emitted p o).Stops (.start p .runDynamic, history) seen) := by
  refine ⟨by simp [untestedLoop, Block.Legal, Stmt.Legal, returns], ?_⟩
  rintro ⟨p, hp, hc, -⟩
  obtain rfl := Option.some.inj hp
  have hempty := hc (.cont "loopbody_" 0, _) (List.mem_cons_of_mem _ (List.mem_cons_self ..)) _
    (List.mem_cons_self ..)
  exact absurd hempty (by decide)

end PbRuleBody
