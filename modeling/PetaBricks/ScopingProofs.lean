import Mathlib.Data.List.Basic
import Mathlib.Order.Nat

/-! # Scoping — declarations in nested blocks, and in the scopes within a block

    A block holds scopes, one in the other: its own, and those of statements that declare
    something for their own extent.  A name stands for the declaration of it in the innermost
    scope (`find`).  A translation that only sees blocks keeps the names of a scope until the
    block ends; what it takes a name for is `near`.

    Blocks are told apart by their path: the number of the block among the blocks of the one
    around it, from the outermost inwards.  A block and a name stand for one declaration only,
    as long as no name is declared where the block already holds it (`decls_nodup`). -/

namespace PbScoping

variable {N : Type}

/-- An open block. -/
structure Block (N : Type) where
  path : List ℕ
  /-- The blocks in it that have been opened. -/
  children : ℕ
  /-- Its open scopes, the innermost first: names, and the numbers of their declarations. -/
  scopes : List (List (N × ℕ))
  /-- The names of scopes that have ended. -/
  left : List (N × ℕ)

/-- The names the block holds. -/
def Block.held (b : Block N) : List (N × ℕ) := b.left ++ b.scopes.flatten

def Block.declare (b : Block N) (x : N) (n : ℕ) : Block N :=
  { b with scopes := match b.scopes with
      | [] => [[(x, n)]]
      | s :: ss => ((x, n) :: s) :: ss }

def Block.closeScope (b : Block N) : Block N :=
  match b.scopes with
  | [] => b
  | s :: ss => { b with scopes := ss, left := s ++ b.left }

/-- The open blocks, and all declarations so far: the path of the block and the name. -/
structure Env (N : Type) where
  block : Block N
  outer : List (Block N)
  decls : List (List ℕ × N)

namespace Env

/-- One block, and nothing declared. -/
def start : Env N := ⟨⟨[], 0, [[]], []⟩, [], []⟩

def blocks (e : Env N) : List (Block N) := e.block :: e.outer

/-- The declaration that a name stands for. -/
def find [BEq N] (e : Env N) (x : N) : Option ℕ :=
  (e.blocks.flatMap fun b => b.scopes.flatten).lookup x

/-- The declaration of a name that the innermost block with one holds. -/
def near [BEq N] (e : Env N) (x : N) : Option ℕ := (e.blocks.flatMap Block.held).lookup x

/-- Does the innermost block hold the name? -/
def again [BEq N] (e : Env N) (x : N) : Bool := (e.block.held.lookup x).isSome

def declare (e : Env N) (x : N) : Env N :=
  ⟨e.block.declare x e.decls.length, e.outer, e.decls ++ [(e.block.path, x)]⟩

def openScope (e : Env N) : Env N := { e with block.scopes := [] :: e.block.scopes }

def closeScope (e : Env N) : Env N := { e with block := e.block.closeScope }

def openBlock (e : Env N) : Env N :=
  ⟨⟨e.block.path ++ [e.block.children], 0, [[]], []⟩,
    { e.block with children := e.block.children + 1 } :: e.outer, e.decls⟩

def closeBlock (e : Env N) : Env N :=
  match e.outer with
  | [] => e
  | b :: bs => ⟨b, bs, e.decls⟩

end Env

/-! ## The names a block holds -/

section Held

variable {b : Block N} {x : N} {n : ℕ}

theorem Block.mem_held_declare {e : N × ℕ} :
    e ∈ (b.declare x n).held ↔ e = (x, n) ∨ e ∈ b.held := by
  rw [held, held, declare]
  cases b.scopes with
  | nil => simp [or_comm]
  | cons s ss =>
      simp only [List.flatten_cons, List.cons_append, List.mem_append, List.mem_cons]
      tauto

theorem Block.mem_held_closeScope {e : N × ℕ} : e ∈ b.closeScope.held ↔ e ∈ b.held := by
  rw [held, held, closeScope]
  cases hs : b.scopes with
  | nil => rw [hs]
  | cons s ss =>
      simp only [List.flatten_cons, List.mem_append]
      tauto

@[simp] theorem Block.path_closeScope : b.closeScope.path = b.path := by
  rw [closeScope]
  split <;> rfl

@[simp] theorem Block.children_closeScope : b.closeScope.children = b.children := by
  rw [closeScope]
  split <;> rfl

theorem lookup_isSome_iff [BEq N] [LawfulBEq N] {l : List (N × ℕ)} :
    (l.lookup x).isSome = true ↔ ∃ n, (x, n) ∈ l := by
  induction l with
  | nil => simp
  | cons e l ih =>
      obtain ⟨y, m⟩ := e
      by_cases h : x = y
      · subst h
        rw [List.lookup_cons_self]
        exact ⟨fun _ => ⟨m, List.mem_cons_self⟩, fun _ => rfl⟩
      · rw [List.lookup_cons, beq_eq_false_iff_ne.mpr h, ih]
        refine exists_congr fun k => ⟨List.mem_cons_of_mem _, fun hmem => ?_⟩
        exact (List.mem_cons.mp hmem).resolve_left fun heq => h (congrArg (·.1) heq)

theorem mem_of_lookup [BEq N] [LawfulBEq N] {l : List (N × ℕ)} (h : l.lookup x = some n) : (x, n) ∈ l := by
  obtain ⟨l₁, l₂, rfl, -⟩ := List.lookup_eq_some_iff.mp h
  exact List.mem_append_right _ List.mem_cons_self

end Held

/-! ## What holds of the blocks and declarations -/

/-- Each block is the last one opened in the one around it. -/
def Nested : Block N → List (Block N) → Prop
  | b, [] => b.path = []
  | b, o :: os => (∃ c, o.children = c + 1 ∧ b.path = o.path ++ [c]) ∧ Nested o os

/-- The declarations of a block are those it holds; those of a block in it are of one that has
    been opened. -/
def Fresh (decls : List (List ℕ × N)) (b : Block N) : Prop :=
  ∀ d ∈ decls, (d.1 = b.path → ∃ n, (d.2, n) ∈ b.held) ∧
    ∀ i t, d.1 = b.path ++ i :: t → i < b.children

/-- The numbers are those of declarations in the block. -/
def Sound (decls : List (List ℕ × N)) (b : Block N) : Prop :=
  ∀ e ∈ b.held, decls[e.2]? = some (b.path, e.1)

structure Wf (e : Env N) : Prop where
  nested : Nested e.block e.outer
  fresh : ∀ b ∈ e.blocks, Fresh e.decls b
  sound : ∀ b ∈ e.blocks, Sound e.decls b

section Invariant

variable {e : Env N}

theorem wf_start : Wf (Env.start : Env N) := by
  refine ⟨rfl, ?_, ?_⟩
  · intro b _ d hd
    cases hd
  · intro b hb
    rw [List.mem_singleton.mp hb]
    intro d hd
    cases hd

/-- The path of a block around is shorter. -/
theorem Nested.outer_path {b : Block N} {os : List (Block N)} (h : Nested b os) :
    ∀ o ∈ os, ∃ c t, b.path = o.path ++ c :: t ∧ c < o.children := by
  induction os generalizing b with
  | nil => intro o ho; cases ho
  | cons a as ih =>
      obtain ⟨⟨c, hc, hpath⟩, hrest⟩ := h
      intro o ho
      rcases List.mem_cons.mp ho with rfl | ho
      · exact ⟨c, [], hpath, by omega⟩
      · obtain ⟨i, t, ha, hi⟩ := ih hrest o ho
        exact ⟨i, t ++ [c], by rw [hpath, ha]; simp, hi⟩

theorem Nested.congr {b b' : Block N} {os : List (Block N)} (h : Nested b os)
    (hpath : b'.path = b.path) : Nested b' os := by
  cases os with
  | nil => exact hpath.trans h
  | cons o os => exact ⟨by rw [hpath]; exact h.1, h.2⟩

theorem Fresh.congr {decls : List (List ℕ × N)} {b b' : Block N} (h : Fresh decls b)
    (hpath : b'.path = b.path) (hchildren : b.children ≤ b'.children)
    (hheld : ∀ e ∈ b.held, e ∈ b'.held) : Fresh decls b' := by
  intro d hd
  obtain ⟨hown, hin⟩ := h d hd
  rw [hpath]
  refine ⟨fun heq => ?_, fun i t heq => lt_of_lt_of_le (hin i t heq) hchildren⟩
  obtain ⟨n, hn⟩ := hown heq
  exact ⟨n, hheld _ hn⟩

theorem Wf.openScope (h : Wf e) : Wf e.openScope := by
  refine ⟨h.nested.congr rfl, ?_, ?_⟩
  · intro b hb
    rcases List.mem_cons.mp hb with rfl | hb
    · exact (h.fresh e.block List.mem_cons_self).congr rfl le_rfl fun _ hm => hm
    · exact h.fresh b (List.mem_cons_of_mem _ hb)
  · intro b hb
    rcases List.mem_cons.mp hb with rfl | hb
    · exact h.sound e.block List.mem_cons_self
    · exact h.sound b (List.mem_cons_of_mem _ hb)

theorem Wf.closeScope (h : Wf e) : Wf e.closeScope := by
  refine ⟨h.nested.congr Block.path_closeScope, ?_, ?_⟩
  · intro b hb
    rcases List.mem_cons.mp hb with rfl | hb
    · exact (h.fresh e.block List.mem_cons_self).congr Block.path_closeScope
        Block.children_closeScope.ge fun _ hm => Block.mem_held_closeScope.mpr hm
    · exact h.fresh b (List.mem_cons_of_mem _ hb)
  · intro b hb
    rcases List.mem_cons.mp hb with rfl | hb
    · intro d hd
      rw [Env.closeScope, Block.path_closeScope]
      exact h.sound e.block List.mem_cons_self d (Block.mem_held_closeScope.mp hd)
    · exact h.sound b (List.mem_cons_of_mem _ hb)

theorem Wf.openBlock (h : Wf e) : Wf e.openBlock := by
  refine ⟨⟨⟨e.block.children, rfl, rfl⟩, h.nested.congr rfl⟩, ?_, ?_⟩
  · intro b hb
    rcases List.mem_cons.mp hb with rfl | hb
    · -- nothing has been declared in the new block
      intro d hd
      obtain ⟨-, hin⟩ := h.fresh e.block List.mem_cons_self d hd
      have hno : ∀ t, d.1 ≠ e.block.path ++ e.block.children :: t := fun t heq =>
        lt_irrefl _ (hin _ t heq)
      refine ⟨fun heq => absurd heq (hno []), fun i t heq => absurd (heq.trans ?_) (hno (i :: t))⟩
      exact List.append_assoc _ _ _
    · rcases List.mem_cons.mp hb with rfl | hb
      · exact (h.fresh e.block List.mem_cons_self).congr rfl (Nat.le_succ _) fun _ hm => hm
      · exact h.fresh b (List.mem_cons_of_mem _ hb)
  · intro b hb
    rcases List.mem_cons.mp hb with rfl | hb
    · intro d hd
      cases hd
    · rcases List.mem_cons.mp hb with rfl | hb
      · exact h.sound e.block List.mem_cons_self
      · exact h.sound b (List.mem_cons_of_mem _ hb)

theorem Wf.closeBlock (h : Wf e) : Wf e.closeBlock := by
  rw [Env.closeBlock]
  split
  · exact h
  · rename_i b bs heq
    have hnested := h.nested
    have hmem : ∀ c ∈ b :: bs, c ∈ e.blocks := fun c hc => List.mem_cons_of_mem _ (heq ▸ hc)
    rw [heq] at hnested
    exact ⟨hnested.2, fun c hc => h.fresh c (hmem c hc), fun c hc => h.sound c (hmem c hc)⟩

theorem Wf.declare (h : Wf e) (x : N) : Wf (e.declare x) := by
  refine ⟨h.nested.congr rfl, ?_, ?_⟩
  · intro b hb d hd
    rcases List.mem_cons.mp hb with rfl | hb
    · rcases List.mem_append.mp hd with hd | hd
      · obtain ⟨hown, hin⟩ := h.fresh e.block List.mem_cons_self d hd
        refine ⟨fun heq => ?_, hin⟩
        obtain ⟨n, hn⟩ := hown heq
        exact ⟨n, Block.mem_held_declare.mpr (.inr hn)⟩
      · rw [List.mem_singleton.mp hd]
        refine ⟨fun _ => ⟨_, Block.mem_held_declare.mpr (.inl rfl)⟩, fun i t heq => ?_⟩
        have hlen := congrArg List.length heq
        simp [Env.declare, Block.declare] at hlen
    · rcases List.mem_append.mp hd with hd | hd
      · exact h.fresh b (List.mem_cons_of_mem _ hb) d hd
      · rw [List.mem_singleton.mp hd]
        obtain ⟨c, u, hpath, hc⟩ := h.nested.outer_path b hb
        refine ⟨fun heq => ?_, fun i t heq => ?_⟩
        · have hlen := congrArg List.length (hpath.symm.trans heq)
          simp at hlen
        · have hcons := List.append_cancel_left (hpath.symm.trans heq)
          rw [← List.head_eq_of_cons_eq hcons]
          exact hc
  · intro b hb d hd
    have hold : ∀ {b : Block N}, b ∈ e.blocks → ∀ d ∈ b.held,
        (e.decls ++ [(e.block.path, x)])[d.2]? = some (b.path, d.1) := by
      intro b hb d hd
      have hget := h.sound b hb d hd
      rw [List.getElem?_append_left (List.getElem?_eq_some_iff.mp hget).1, hget]
    rcases List.mem_cons.mp hb with rfl | hb
    · rcases Block.mem_held_declare.mp hd with rfl | hd
      · exact List.getElem?_concat_length
      · exact hold List.mem_cons_self d hd
    · exact hold (List.mem_cons_of_mem _ hb) d hd

section Names

variable [BEq N] [LawfulBEq N] {x : N} {n : ℕ}

/-- **A BLOCK AND A NAME ARE ONE DECLARATION**, if the block does not hold the name yet. -/
theorem Wf.not_mem_decls (h : Wf e) (hx : e.again x = false) : (e.block.path, x) ∉ e.decls := by
  intro hmem
  have hheld := (h.fresh _ List.mem_cons_self _ hmem).1 rfl
  rw [Env.again, lookup_isSome_iff.mpr hheld] at hx
  cases hx

/-! ## Which declaration a name stands for -/

theorem near_some (h : Wf e) (hx : e.near x = some n) :
    ∃ b ∈ e.blocks, (x, n) ∈ b.held ∧ e.decls[n]? = some (b.path, x) := by
  obtain ⟨b, hb, hmem⟩ := List.mem_flatMap.mp (mem_of_lookup hx)
  exact ⟨b, hb, hmem, h.sound b hb _ hmem⟩

theorem find_some (h : Wf e) (hx : e.find x = some n) : ∃ p, e.decls[n]? = some (p, x) := by
  obtain ⟨b, hb, hmem⟩ := List.mem_flatMap.mp (mem_of_lookup hx)
  exact ⟨_, h.sound b hb _ (List.mem_append_right _ hmem)⟩

theorem find_eq_none (hx : e.near x = none) : e.find x = none := by
  by_contra hne
  obtain ⟨n, hn⟩ := Option.ne_none_iff_exists'.mp hne
  obtain ⟨b, hb, hmem⟩ := List.mem_flatMap.mp (mem_of_lookup hn)
  have hheld : ∃ n, (x, n) ∈ e.blocks.flatMap Block.held :=
    ⟨n, List.mem_flatMap.mpr ⟨b, hb, List.mem_append_right _ hmem⟩⟩
  rw [Env.near] at hx
  rw [← lookup_isSome_iff, hx] at hheld
  cases hheld

theorem again_spec (h : Wf e) (hx : e.again x = true) :
    ∃ n : ℕ, e.decls[n]? = some (e.block.path, x) := by
  obtain ⟨n, hn⟩ := lookup_isSome_iff.mp hx
  exact ⟨n, h.sound _ List.mem_cons_self _ hn⟩

end Names

end Invariant

end PbScoping
