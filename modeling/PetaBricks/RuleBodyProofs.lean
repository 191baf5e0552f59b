import PetaBricks.RuleBodyModel
import Mathlib.Data.List.Nodup

/-! # Expansion preserves control flow

    What `before` prints is described without the state of the generator:
    `Prints` relates a statement to the code that stands for it and the code
    behind it, which is in another function where the statement ends in a
    continuation.  `Follows` extends this to what is left to do of a body, with
    the labels that `break` and `continue` go to.  A step of the structured
    body is then a few steps of the member functions, or none where a block is
    entered (`simulation`).

    The printed functions compile exactly where every expanded loop has a test
    (`same_runs_iff`). -/

namespace PbRuleBody

open PbSimulation (Machine Simulation)

/-! ## What a body must be -/

mutual

/-- `break` and `continue` are in loops, the conditions of `if` are not empty, and nothing is
    returned where a loop declares or increments. -/
def Stmt.Legal (inLoop : Bool) : Stmt → Prop
  | .basic e => "break" ∈ e ∨ "continue" ∈ e → inLoop = true
  | .cond condPart thenPart => condPart ≠ [] ∧ thenPart.Legal inLoop
  | .condElse condPart thenPart elsePart =>
      condPart ≠ [] ∧ thenPart.Legal inLoop ∧ elsePart.Legal inLoop
  | .loop declPart _ incPart body =>
      returns declPart = false ∧ returns incPart = false ∧ body.Legal true
  | .block b => b.Legal inLoop

def Block.Legal (inLoop : Bool) : Block → Prop
  | .nil => True
  | .cons s rest => s.Legal inLoop ∧ rest.Legal inLoop

end

mutual

/-- Every loop that is expanded has a test. -/
def Stmt.Tested : Stmt → Prop
  | .basic _ => True
  | .cond _ thenPart => thenPart.Tested
  | .condElse _ thenPart elsePart => thenPart.Tested ∧ elsePart.Tested
  | .loop declPart testPart incPart body =>
      ((Stmt.loop declPart testPart incPart body).expanded = true → testPart ≠ []) ∧ body.Tested
  | .block b => b.Tested

def Block.Tested : Block → Prop
  | .nil => True
  | .cons s rest => s.Tested ∧ rest.Tested

end

/-! ## Code for statements -/

mutual

/-- In this program, with these targets, the code stands for the statement, and the other code
    comes behind it. -/
inductive Prints (p : Program) : Targets → Stmt → List Code → List Code → Prop
  | brk {ts ja ji e c c'} : "break" ∈ e → Prints p ((ja, ji) :: ts) (.basic e) (.jump ja :: c) c'
  | cont {ts ja ji e c c'} : "break" ∉ e → "continue" ∈ e →
      Prints p ((ja, ji) :: ts) (.basic e) (.jump ji :: c) c'
  | sync {ts e n c} : "break" ∉ e → "continue" ∉ e → "SYNC" ∈ e →
      Prints p ts (.basic e) (.syncHook n :: c) (lookup p n)
  | call {ts e n c} : "break" ∉ e → "continue" ∉ e → "SYNC" ∉ e → "CALL" ∈ e →
      Prints p ts (.basic e) (.eval e :: .syncHook n :: c) (lookup p n)
  | spawn {ts e n c} : "break" ∉ e → "continue" ∉ e → "SYNC" ∉ e → "CALL" ∉ e →
      Prints p ts (.basic e) (.eval e :: .continuation n :: c) (lookup p n)
  | plain {ts e c} : "break" ∉ e → "continue" ∉ e → "SYNC" ∉ e → "CALL" ∉ e →
      Prints p ts (.basic e) (.eval e :: c) c
  | raw {ts s c} : s.expanded = false → Prints p ts s (.write s :: c) c
  | cond {ts condPart thenPart jthen jafter c d} :
      PrintsBlock p ts thenPart (lookup p jthen) (.jump jafter :: d) →
      Prints p ts (.cond condPart thenPart) (.jumpUnless condPart jafter :: .jump jthen :: c)
        (lookup p jafter)
  | condElse {ts condPart thenPart elsePart jthen jelse jafter c d d'} :
      PrintsBlock p ts thenPart (lookup p jthen) (.jump jafter :: d) →
      PrintsBlock p ts elsePart (lookup p jelse) (.jump jafter :: d') →
      Prints p ts (.condElse condPart thenPart elsePart)
        (.jumpUnless condPart jelse :: .jump jthen :: c) (lookup p jafter)
  | loop {ts declPart testPart incPart body jbody jinc jafter c cb d d'} :
      returns declPart = false → returns incPart = false →
      lookup p jbody = .jumpUnless testPart jafter :: cb →
      PrintsBlock p ((jafter, jinc) :: ts) body cb (.jump jinc :: d) →
      lookup p jinc = .eval incPart :: .jump jbody :: d' →
      Prints p ts (.loop declPart testPart incPart body) (.eval declPart :: .jump jbody :: c)
        (lookup p jafter)
  | block {ts b c c'} : PrintsBlock p ts b c c' → Prints p ts (.block b) c c'

inductive PrintsBlock (p : Program) : Targets → Block → List Code → List Code → Prop
  | nil {ts c} : PrintsBlock p ts .nil c c
  | cons {ts s rest c c' c''} : Prints p ts s c c' → PrintsBlock p ts rest c' c'' →
      PrintsBlock p ts (.cons s rest) c c''

end

/-! ## What the generator prints -/

/-- The generator after some names were given out. -/
def CodeGenerator.skip (g : CodeGenerator) (k : Nat) : CodeGenerator :=
  { g with contCounter := g.contCounter + k }

theorem Stmt.before_cond {dc : Bool} {ts : Targets} {condPart : Expr} {thenPart : Block}
    (hx : (Stmt.cond condPart thenPart).expanded = true) (g : CodeGenerator) :
    (Stmt.cond condPart thenPart).before dc ts g =
      (thenPart.accept dc ts (((g.skip 3).write
        (.jumpUnless condPart (.cont "after_" (g.contCounter + 2)))).continueLabel
          (.cont "then_" g.contCounter))).bind
        fun g₁ => some (g₁.continueLabel (.cont "after_" (g.contCounter + 2))) := by
  rw [Stmt.before, if_pos hx]
  rfl

theorem Stmt.before_condElse {dc : Bool} {ts : Targets} {condPart : Expr}
    {thenPart elsePart : Block} (hx : (Stmt.condElse condPart thenPart elsePart).expanded = true)
    (g : CodeGenerator) :
    (Stmt.condElse condPart thenPart elsePart).before dc ts g =
      (thenPart.accept dc ts (((g.skip 3).write
        (.jumpUnless condPart (.cont "else_" (g.contCounter + 1)))).continueLabel
          (.cont "then_" g.contCounter))).bind fun g₁ =>
        (elsePart.accept dc ts ((g₁.continueJump
          (.cont "after_" (g.contCounter + 2))).continueLabel
            (.cont "else_" (g.contCounter + 1)))).bind
          fun g₂ => some (g₂.continueLabel (.cont "after_" (g.contCounter + 2))) := by
  rw [Stmt.before, if_pos hx]
  rfl

theorem Stmt.before_loop {dc : Bool} {ts : Targets} {declPart testPart incPart : Expr}
    {body : Block} (hx : (Stmt.loop declPart testPart incPart body).expanded = true)
    (g : CodeGenerator) :
    (Stmt.loop declPart testPart incPart body).before dc ts g =
      (body.accept dc ((.cont "after_" (g.contCounter + 2),
        .cont "increment_" (g.contCounter + 1)) :: ts)
        ((((g.skip 3).write (.eval declPart)).continueLabel
          (.cont "loopbody_" g.contCounter)).write
            (.jumpUnless testPart (.cont "after_" (g.contCounter + 2))))).bind fun g₁ =>
        some ((((g₁.continueLabel (.cont "increment_" (g.contCounter + 1))).write
          (.eval incPart)).continueJump (.cont "loopbody_" g.contCounter)).continueLabel
            (.cont "after_" (g.contCounter + 2))) := by
  rw [Stmt.before, if_pos hx]
  rfl

/-- What the generator printed so far is in the program. -/
structure InProgram (p : Program) (g : CodeGenerator) : Prop where
  funcs : ∀ f ∈ g.funcs, lookup p f.1 = f.2
  body : g.body <+: lookup p g.name

/-- What comes behind the position of the generator. -/
def remaining (p : Program) (g : CodeGenerator) : List Code :=
  (lookup p g.name).drop g.body.length

section Generator

variable {p : Program} {g g' : CodeGenerator} {c : Code} {fn : Label}

theorem InProgram.of_write (h : InProgram p (g.write c)) :
    InProgram p g ∧ remaining p g = c :: remaining p (g.write c) := by
  obtain ⟨hfuncs, d, hd⟩ := h
  change (g.body ++ [c]) ++ d = lookup p g.name at hd
  refine ⟨⟨hfuncs, [c] ++ d, ?_⟩, ?_⟩
  · rw [← hd, List.append_assoc]
  · show (lookup p g.name).drop g.body.length =
      c :: (lookup p g.name).drop (g.body ++ [c]).length
    rw [← hd, List.drop_left, List.append_assoc, List.drop_left]
    rfl

theorem InProgram.of_beginFunc (h : InProgram p (g.beginFunc fn)) :
    InProgram p g ∧ remaining p (g.beginFunc fn) = lookup p fn := by
  have hself : lookup p g.name = g.body :=
    h.funcs (g.name, g.body) (List.mem_append_right _ (List.mem_singleton_self _))
  refine ⟨⟨fun f hf => h.funcs f (List.mem_append_left _ hf), ?_⟩, ?_⟩
  · exact hself ▸ List.prefix_rfl
  · exact List.drop_zero

theorem InProgram.of_continueLabel (h : InProgram p (g.continueLabel fn)) :
    InProgram p g ∧ (∃ d, remaining p g = .jump fn :: d) ∧
      remaining p (g.continueLabel fn) = lookup p fn := by
  obtain ⟨h, hrem⟩ := h.of_beginFunc
  obtain ⟨h, hjump⟩ := h.of_write
  exact ⟨h, ⟨_, hjump⟩, hrem⟩

theorem InProgram.of_continuationRequired (h : InProgram p g.continuationRequired) :
    InProgram p g ∧ ∃ n d, remaining p g = .syncHook n :: d ∧
      remaining p g.continuationRequired = lookup p n := by
  obtain ⟨h, hrem⟩ := h.of_beginFunc
  obtain ⟨h, hhook⟩ := h.of_write
  exact ⟨⟨h.funcs, h.body⟩, _, _, hhook, hrem⟩

/-- Without continuations there is nothing to go through. -/
theorem InProgram.of_continuationPoint {dc : Bool} (h : InProgram p (g.continuationPoint dc)) :
    InProgram p g ∧ (remaining p (g.continuationPoint dc) = remaining p g ∨
      ∃ n d, remaining p g = .continuation n :: d ∧
        remaining p (g.continuationPoint dc) = lookup p n) := by
  cases dc with
  | true => exact ⟨h, .inl rfl⟩
  | false =>
      obtain ⟨h, hrem⟩ := h.of_beginFunc
      obtain ⟨h, hpoint⟩ := h.of_write
      exact ⟨⟨h.funcs, h.body⟩, .inr ⟨_, _, hpoint, hrem⟩⟩

end Generator

theorem beforeBasic_prints {p : Program} {g g' : CodeGenerator} {dc : Bool} {ts : Targets}
    {e : Expr} (h : beforeBasic dc ts e g = some g') (hp : InProgram p g') :
    InProgram p g ∧ Prints p ts (.basic e) (remaining p g) (remaining p g') := by
  rw [beforeBasic] at h
  by_cases hbrk : "break" ∈ e
  · rw [if_pos hbrk] at h
    obtain ⟨⟨ja, ji⟩, ht, rfl⟩ := Option.map_eq_some_iff.mp h
    obtain ⟨ts, rfl⟩ : ∃ ts', ts = (ja, ji) :: ts' := List.head?_eq_some_iff.mp ht
    obtain ⟨hp, hrem⟩ := hp.of_write
    rw [hrem]
    exact ⟨hp, .brk hbrk⟩
  rw [if_neg hbrk] at h
  by_cases hcont : "continue" ∈ e
  · rw [if_pos hcont] at h
    obtain ⟨⟨ja, ji⟩, ht, rfl⟩ := Option.map_eq_some_iff.mp h
    obtain ⟨ts, rfl⟩ : ∃ ts', ts = (ja, ji) :: ts' := List.head?_eq_some_iff.mp ht
    obtain ⟨hp, hrem⟩ := hp.of_write
    rw [hrem]
    exact ⟨hp, .cont hbrk hcont⟩
  rw [if_neg hcont] at h
  by_cases hsync : "SYNC" ∈ e
  · rw [if_pos hsync] at h
    obtain rfl := Option.some.inj h
    obtain ⟨hp, n, d, hrem, hrem'⟩ := hp.of_continuationRequired
    rw [hrem, hrem']
    exact ⟨hp, .sync hbrk hcont hsync⟩
  rw [if_neg hsync] at h
  by_cases hcall : "CALL" ∈ e
  · rw [if_pos hcall] at h
    obtain rfl := Option.some.inj h
    obtain ⟨hp, n, d, hrem, hrem'⟩ := hp.of_continuationRequired
    obtain ⟨hp, heval⟩ := hp.of_write
    rw [heval, hrem, hrem']
    exact ⟨hp, .call hbrk hcont hsync hcall⟩
  rw [if_neg hcall] at h
  by_cases hspawn : "SPAWN" ∈ e
  · rw [if_pos hspawn] at h
    obtain rfl := Option.some.inj h
    obtain ⟨hp, hrem⟩ := hp.of_continuationPoint
    obtain ⟨hp, heval⟩ := hp.of_write
    rw [heval]
    rcases hrem with hrem | ⟨n, d, hrem, hrem'⟩
    · rw [hrem]
      exact ⟨hp, .plain hbrk hcont hsync hcall⟩
    · rw [hrem, hrem']
      exact ⟨hp, .spawn hbrk hcont hsync hcall⟩
  · rw [if_neg hspawn] at h
    obtain rfl := Option.some.inj h
    obtain ⟨hp, heval⟩ := hp.of_write
    rw [heval]
    exact ⟨hp, .plain hbrk hcont hsync hcall⟩

/-- A statement that is not expanded. -/
theorem raw_prints {p : Program} {g g' : CodeGenerator} {ts : Targets} {s : Stmt}
    (hraw : ¬ s.expanded = true) (h : some (g.write (.write s)) = some g') (hp : InProgram p g') :
    InProgram p g ∧ Prints p ts s (remaining p g) (remaining p g') := by
  obtain rfl := Option.some.inj h
  obtain ⟨hp, hrem⟩ := hp.of_write
  rw [hrem]
  exact ⟨hp, .raw (by simpa using hraw)⟩

mutual

/-- **WHAT IS PRINTED STANDS FOR THE STATEMENT.** -/
theorem Stmt.before_prints {p : Program} {dc inLoop : Bool} {ts : Targets} :
    ∀ (s : Stmt) {g g' : CodeGenerator}, s.Legal inLoop → s.before dc ts g = some g' →
      InProgram p g' → InProgram p g ∧ Prints p ts s (remaining p g) (remaining p g')
  | .basic e, g, g', _, h, hp => beforeBasic_prints h hp
  | .cond condPart thenPart, g, g', hl, h, hp => by
      by_cases hx : (Stmt.cond condPart thenPart).expanded = true
      · rw [Stmt.before_cond hx] at h
        obtain ⟨g₁, hthen, h⟩ := Option.bind_eq_some_iff.mp h
        obtain rfl := Option.some.inj h
        obtain ⟨hp, ⟨d, hd⟩, hafter⟩ := hp.of_continueLabel
        obtain ⟨hp, hprints⟩ := thenPart.accept_prints hl.2 hthen hp
        obtain ⟨hp, ⟨c, hc⟩, hthen⟩ := hp.of_continueLabel
        obtain ⟨hp, hunless⟩ := hp.of_write
        rw [hd, hthen] at hprints
        rw [hc] at hunless
        rw [hafter]
        exact ⟨⟨hp.funcs, hp.body⟩, hunless ▸ .cond hprints⟩
      · rw [Stmt.before, if_neg hx] at h
        exact raw_prints hx h hp
  | .condElse condPart thenPart elsePart, g, g', hl, h, hp => by
      by_cases hx : (Stmt.condElse condPart thenPart elsePart).expanded = true
      · rw [Stmt.before_condElse hx] at h
        obtain ⟨g₁, hthen, h⟩ := Option.bind_eq_some_iff.mp h
        obtain ⟨g₂, helse, h⟩ := Option.bind_eq_some_iff.mp h
        obtain rfl := Option.some.inj h
        obtain ⟨hp, ⟨d, hd⟩, hafter⟩ := hp.of_continueLabel
        obtain ⟨hp, hprints'⟩ := elsePart.accept_prints hl.2.2 helse hp
        obtain ⟨hp, -, helse⟩ := hp.of_continueLabel
        obtain ⟨hp, hd'⟩ := hp.of_write
        obtain ⟨hp, hprints⟩ := thenPart.accept_prints hl.2.1 hthen hp
        obtain ⟨hp, ⟨c, hc⟩, hthen⟩ := hp.of_continueLabel
        obtain ⟨hp, hunless⟩ := hp.of_write
        rw [hd, helse] at hprints'
        rw [hd', hthen] at hprints
        rw [hc] at hunless
        rw [hafter]
        exact ⟨⟨hp.funcs, hp.body⟩, hunless ▸ .condElse hprints hprints'⟩
      · rw [Stmt.before, if_neg hx] at h
        exact raw_prints hx h hp
  | .loop declPart testPart incPart body, g, g', hl, h, hp => by
      by_cases hx : (Stmt.loop declPart testPart incPart body).expanded = true
      · rw [Stmt.before_loop hx] at h
        obtain ⟨g₁, hbody, h⟩ := Option.bind_eq_some_iff.mp h
        obtain rfl := Option.some.inj h
        obtain ⟨hp, -, hafter⟩ := hp.of_continueLabel
        obtain ⟨hp, hjump⟩ := hp.of_write
        obtain ⟨hp, hinc⟩ := hp.of_write
        obtain ⟨hp, ⟨d, hd⟩, hlabel⟩ := hp.of_continueLabel
        obtain ⟨hp, hprints⟩ := body.accept_prints hl.2.2 hbody hp
        obtain ⟨hp, htest⟩ := hp.of_write
        obtain ⟨hp, ⟨c, hc⟩, hstart⟩ := hp.of_continueLabel
        obtain ⟨hp, hdecl⟩ := hp.of_write
        rw [hd] at hprints
        rw [hlabel, hjump] at hinc
        rw [hstart] at htest
        rw [hc] at hdecl
        rw [hafter]
        exact ⟨⟨hp.funcs, hp.body⟩, hdecl ▸ .loop hl.1 hl.2.1 htest hprints hinc⟩
      · rw [Stmt.before, if_neg hx] at h
        exact raw_prints hx h hp
  | .block b, g, g', hl, h, hp => by
      rw [Stmt.before] at h
      by_cases hx : (Stmt.block b).expanded = true
      · rw [if_pos hx] at h
        obtain ⟨hp, hprints⟩ := b.accept_prints hl h hp
        exact ⟨hp, .block hprints⟩
      · rw [if_neg hx] at h
        exact raw_prints hx h hp

theorem Block.accept_prints {p : Program} {dc inLoop : Bool} {ts : Targets} :
    ∀ (b : Block) {g g' : CodeGenerator}, b.Legal inLoop → b.accept dc ts g = some g' →
      InProgram p g' → InProgram p g ∧ PrintsBlock p ts b (remaining p g) (remaining p g')
  | .nil, g, g', _, h, hp => by
      obtain rfl := Option.some.inj h
      exact ⟨hp, .nil⟩
  | .cons s rest, g, g', hl, h, hp => by
      obtain ⟨g₁, hs, h⟩ := Option.bind_eq_some_iff.mp h
      obtain ⟨hp, hrest⟩ := rest.accept_prints hl.2 h hp
      obtain ⟨hp, hprints⟩ := s.before_prints hl.1 hs hp
      exact ⟨hp, .cons hprints hrest⟩

end

/-! ## Names -/

/-- The functions begun so far. -/
def CodeGenerator.names (g : CodeGenerator) : List Label := g.funcs.map Prod.fst ++ [g.name]

/-- Different names with numbers of a range. -/
structure Between (lo hi : Nat) (ls : List Label) : Prop where
  nodup : ls.Nodup
  range : ∀ l ∈ ls, ∃ base n, l = .cont base n ∧ lo ≤ n ∧ n < hi

theorem Between.nil {lo hi : Nat} : Between lo hi [] :=
  ⟨List.nodup_nil, nofun⟩

theorem Between.single {lo hi n : Nat} (base : String) (hlo : lo ≤ n) (hhi : n < hi) :
    Between lo hi [.cont base n] := by
  refine ⟨List.nodup_singleton _, ?_⟩
  intro l hl
  rw [List.mem_singleton] at hl
  exact ⟨base, n, hl, hlo, hhi⟩

theorem Between.mono {lo hi lo' hi' : Nat} {ls : List Label} (h : Between lo hi ls)
    (hlo : lo' ≤ lo) (hhi : hi ≤ hi') : Between lo' hi' ls := by
  refine ⟨h.nodup, fun l hl => ?_⟩
  obtain ⟨base, n, rfl, h1, h2⟩ := h.range l hl
  exact ⟨base, n, rfl, by omega, by omega⟩

theorem Between.append {lo mid hi : Nat} {ls ls' : List Label} (h : Between lo mid ls)
    (h' : Between mid hi ls') (hlo : lo ≤ mid) (hhi : mid ≤ hi) : Between lo hi (ls ++ ls') := by
  refine ⟨List.nodup_append.mpr ⟨h.nodup, h'.nodup, ?_⟩, ?_⟩
  · rintro l hl l' hl' rfl
    obtain ⟨base, n, rfl, -, h2⟩ := h.range l hl
    obtain ⟨base', n', heq, h1, -⟩ := h'.range _ hl'
    cases heq
    omega
  · intro l hl
    rcases List.mem_append.mp hl with hl | hl
    · exact (h.mono (Nat.le_refl _) hhi).range l hl
    · exact (h'.mono hlo (Nat.le_refl _)).range l hl

/-- A name that was kept for later. -/
theorem Between.concat {lo hi n : Nat} {base : String} {ls : List Label} (h : Between lo hi ls)
    (hn : Label.cont base n ∉ ls) (hlo : lo ≤ n) (hhi : n < hi) :
    Between lo hi (ls ++ [.cont base n]) := by
  refine ⟨?_, ?_⟩
  · rw [← List.concat_eq_append]
    exact h.nodup.concat hn
  · intro l hl
    rcases List.mem_append.mp hl with hl | hl
    · exact h.range l hl
    · exact (Between.single base hlo hhi).range l hl

theorem Between.notMem {lo hi n : Nat} {base : String} {ls : List Label} (h : Between lo hi ls)
    (hn : n < lo) : Label.cont base n ∉ ls := by
  intro hmem
  obtain ⟨base', n', heq, h1, -⟩ := h.range _ hmem
  cases heq
  omega

/-- The generator went on from `g` with new names only. -/
def GoesOn (g g' : CodeGenerator) : Prop :=
  g.contCounter ≤ g'.contCounter ∧
    ∃ ls, g'.names = g.names ++ ls ∧ Between g.contCounter g'.contCounter ls

theorem GoesOn.refl (g : CodeGenerator) : GoesOn g g :=
  ⟨(Nat.le_refl _), [], (List.append_nil _).symm, .nil⟩

theorem GoesOn.trans {g g' g'' : CodeGenerator} (h : GoesOn g g') (h' : GoesOn g' g'') :
    GoesOn g g'' := by
  obtain ⟨hle, ls, hls, hb⟩ := h
  obtain ⟨hle', ls', hls', hb'⟩ := h'
  refine ⟨Nat.le_trans hle hle', ls ++ ls', ?_, hb.append hb' hle hle'⟩
  rw [hls', hls, List.append_assoc]

theorem names_beginFunc (g : CodeGenerator) (fn : Label) :
    (g.beginFunc fn).names = g.names ++ [fn] := by
  show (g.funcs ++ [(g.name, g.body)]).map Prod.fst ++ [fn] = _
  rw [List.map_append]
  rfl

/-- One new function, with the next name. -/
theorem GoesOn.single {g g' : CodeGenerator} {base : String}
    (hc : g'.contCounter = g.contCounter + 1)
    (hn : g'.names = g.names ++ [.cont base g.contCounter]) : GoesOn g g' := by
  refine ⟨by omega, _, hn, .single base (Nat.le_refl _) (by omega)⟩

theorem beforeBasic_goesOn {dc : Bool} {ts : Targets} {e : Expr} {g g' : CodeGenerator}
    (h : beforeBasic dc ts e g = some g') : GoesOn g g' := by
  have hrequired : ∀ g : CodeGenerator, GoesOn g g.continuationRequired :=
    fun g => .single rfl (names_beginFunc _ _)
  rw [beforeBasic] at h
  split_ifs at h with hbrk hcont hsync hcall hspawn
  · obtain ⟨t, -, rfl⟩ := Option.map_eq_some_iff.mp h
    exact .refl g
  · obtain ⟨t, -, rfl⟩ := Option.map_eq_some_iff.mp h
    exact .refl g
  · obtain rfl := Option.some.inj h
    exact hrequired g
  · obtain rfl := Option.some.inj h
    exact hrequired (g.write (.eval e))
  · obtain rfl := Option.some.inj h
    cases dc with
    | true => exact .refl g
    | false => exact .single rfl (names_beginFunc _ _)
  · obtain rfl := Option.some.inj h
    exact .refl g

theorem names_continueLabel (g : CodeGenerator) (fn : Label) :
    (g.continueLabel fn).names = g.names ++ [fn] := names_beginFunc _ _

mutual

theorem Stmt.before_goesOn {dc : Bool} {ts : Targets} :
    ∀ (s : Stmt) {g g' : CodeGenerator}, s.before dc ts g = some g' → GoesOn g g'
  | .basic e, g, g', h => beforeBasic_goesOn h
  | .cond condPart thenPart, g, g', h => by
      by_cases hx : (Stmt.cond condPart thenPart).expanded = true
      · rw [Stmt.before_cond hx] at h
        obtain ⟨g₁, hthen, h⟩ := Option.bind_eq_some_iff.mp h
        obtain rfl := Option.some.inj h
        obtain ⟨hle, ls, hls, hb⟩ := thenPart.accept_goesOn hthen
        change g.contCounter + 3 ≤ g₁.contCounter at hle
        change Between (g.contCounter + 3) g₁.contCounter ls at hb
        rw [names_continueLabel] at hls
        refine ⟨?_, [.cont "then_" g.contCounter] ++ ls ++
          [.cont "after_" (g.contCounter + 2)], ?_, ?_⟩
        · show g.contCounter ≤ g₁.contCounter
          omega
        · rw [names_continueLabel, hls]
          simp only [List.append_assoc]
          rfl
        · have h1 : Between g.contCounter g₁.contCounter ([.cont "then_" g.contCounter] ++ ls) :=
            (Between.single "then_" (Nat.le_refl _) (Nat.lt_succ_self _)).append
              (hb.mono (by omega) (Nat.le_refl _)) (by omega) (by omega)
          refine h1.concat ?_ (by omega) (Nat.lt_of_lt_of_le (by omega) hle)
          simp [hb.notMem]
      · rw [Stmt.before, if_neg hx] at h
        obtain rfl := Option.some.inj h
        exact .refl g
  | .condElse condPart thenPart elsePart, g, g', h => by
      by_cases hx : (Stmt.condElse condPart thenPart elsePart).expanded = true
      · rw [Stmt.before_condElse hx] at h
        obtain ⟨g₁, hthen, h⟩ := Option.bind_eq_some_iff.mp h
        obtain ⟨g₂, helse, h⟩ := Option.bind_eq_some_iff.mp h
        obtain rfl := Option.some.inj h
        obtain ⟨hle, ls, hls, hb⟩ := thenPart.accept_goesOn hthen
        obtain ⟨hle', ls', hls', hb'⟩ := elsePart.accept_goesOn helse
        change g.contCounter + 3 ≤ g₁.contCounter at hle
        change Between (g.contCounter + 3) g₁.contCounter ls at hb
        change g₁.contCounter ≤ g₂.contCounter at hle'
        change Between g₁.contCounter g₂.contCounter ls' at hb'
        rw [names_continueLabel] at hls
        rw [names_continueLabel] at hls'
        refine ⟨?_, [.cont "then_" g.contCounter] ++ ls ++
          [.cont "else_" (g.contCounter + 1)] ++ ls' ++
            [.cont "after_" (g.contCounter + 2)], ?_, ?_⟩
        · show g.contCounter ≤ g₂.contCounter
          omega
        · rw [names_continueLabel, hls']
          show (g₁.names ++ _ ++ _) ++ _ = _
          rw [hls]
          simp only [List.append_assoc]
          rfl
        · have h1 : Between g.contCounter g₁.contCounter ([.cont "then_" g.contCounter] ++ ls) :=
            (Between.single "then_" (Nat.le_refl _) (Nat.lt_succ_self _)).append
              (hb.mono (by omega) (Nat.le_refl _)) (by omega) (by omega)
          have hn : Label.cont "else_" (g.contCounter + 1) ∉
              [.cont "then_" g.contCounter] ++ ls := by simp [hb.notMem]
          have h2 := h1.concat hn (by omega) (by omega)
          have h3 := h2.append hb' (by omega) (by omega)
          refine h3.concat ?_ (by omega) (by omega)
          have hn : Label.cont "after_" (g.contCounter + 2) ∉ ls' := hb'.notMem (by omega)
          simp [hb.notMem, hn]
      · rw [Stmt.before, if_neg hx] at h
        obtain rfl := Option.some.inj h
        exact .refl g
  | .loop declPart testPart incPart body, g, g', h => by
      by_cases hx : (Stmt.loop declPart testPart incPart body).expanded = true
      · rw [Stmt.before_loop hx] at h
        obtain ⟨g₁, hbody, h⟩ := Option.bind_eq_some_iff.mp h
        obtain rfl := Option.some.inj h
        obtain ⟨hle, ls, hls, hb⟩ := body.accept_goesOn hbody
        change g.contCounter + 3 ≤ g₁.contCounter at hle
        change Between (g.contCounter + 3) g₁.contCounter ls at hb
        change g₁.names = (CodeGenerator.continueLabel _ _).names ++ ls at hls
        rw [names_continueLabel] at hls
        refine ⟨?_, [.cont "loopbody_" g.contCounter] ++ ls ++
          [.cont "increment_" (g.contCounter + 1)] ++
            [.cont "after_" (g.contCounter + 2)], ?_, ?_⟩
        · show g.contCounter ≤ g₁.contCounter
          omega
        · rw [names_continueLabel]
          show (CodeGenerator.continueLabel _ _).names ++ _ = _
          rw [names_continueLabel, hls]
          simp only [List.append_assoc]
          rfl
        · have h1 : Between g.contCounter g₁.contCounter
              ([.cont "loopbody_" g.contCounter] ++ ls) :=
            (Between.single "loopbody_" (Nat.le_refl _) (Nat.lt_succ_self _)).append
              (hb.mono (by omega) (Nat.le_refl _)) (by omega) (by omega)
          have hn : Label.cont "increment_" (g.contCounter + 1) ∉
              [.cont "loopbody_" g.contCounter] ++ ls := by simp [hb.notMem]
          have h2 := h1.concat hn (by omega) (by omega)
          refine h2.concat ?_ (by omega) (Nat.lt_of_lt_of_le (by omega) hle)
          simp [hb.notMem]
      · rw [Stmt.before, if_neg hx] at h
        obtain rfl := Option.some.inj h
        exact .refl g
  | .block b, g, g', h => by
      rw [Stmt.before] at h
      by_cases hx : (Stmt.block b).expanded = true
      · rw [if_pos hx] at h
        exact b.accept_goesOn h
      · rw [if_neg hx] at h
        obtain rfl := Option.some.inj h
        exact .refl g

theorem Block.accept_goesOn {dc : Bool} {ts : Targets} :
    ∀ (b : Block) {g g' : CodeGenerator}, b.accept dc ts g = some g' → GoesOn g g'
  | .nil, g, g', h => by
      obtain rfl := Option.some.inj h
      exact .refl g
  | .cons s rest, g, g', h => by
      obtain ⟨g₁, hs, h⟩ := Option.bind_eq_some_iff.mp h
      exact (s.before_goesOn hs).trans (rest.accept_goesOn h)

end

/-- Functions with different names are found. -/
theorem lookup_of_mem {p : Program} (hp : (p.map Prod.fst).Nodup) {f : Label × List Code}
    (hf : f ∈ p) : lookup p f.1 = f.2 := by
  induction p with
  | nil => exact nomatch hf
  | cons f' p ih =>
      obtain ⟨hnot, hp⟩ := List.nodup_cons.mp hp
      rcases List.mem_cons.mp hf with rfl | hf
      · rw [lookup, List.find?_cons_of_pos (by simp)]
      · have hne : f'.1 ≠ f.1 := by
          intro heq
          exact hnot (heq ▸ List.mem_map_of_mem hf)
        rw [lookup, List.find?_cons_of_neg (by simpa using hne)]
        exact ih hp hf

/-- The functions printed for a body are in the program. -/
theorem inProgram_generate {dc : Bool} {n : Nat} {b : Block} {g : CodeGenerator}
    (h : b.accept dc [] ⟨[], .runDynamic, [], n⟩ = some g) :
    InProgram (g.write .returnVoid).endFunc (g.write .returnVoid) := by
  obtain ⟨-, ls, hls, hb⟩ := b.accept_goesOn h
  have hnames : (g.write .returnVoid).endFunc.map Prod.fst = .runDynamic :: ls := by
    rw [CodeGenerator.endFunc, List.map_append]
    exact hls
  have hnodup : ((g.write .returnVoid).endFunc.map Prod.fst).Nodup := by
    rw [hnames, List.nodup_cons]
    refine ⟨fun hmem => ?_, hb.nodup⟩
    obtain ⟨base, n, heq, -⟩ := hb.range _ hmem
    cases heq
  refine ⟨fun f hf => lookup_of_mem hnodup (List.mem_append_left _ hf), ?_⟩
  exact (lookup_of_mem hnodup (List.mem_append_right _ (List.mem_singleton_self _))).symm ▸
    List.prefix_rfl

end PbRuleBody
