import PetaBricks.OrderedMapProofs
import Mathlib.Logic.Relation
import Mathlib.Data.List.Nodup

/-!
# Depth-first orders — a post-order walk that refuses to re-enter a pending node

The walk appends a node after everything it points at, skips nodes it already generated, and
stops with a fault when it meets a node that is pending but not generated.  Edges from a node
to itself are ignored.

The fault is the subject.  The pending set is only ever added to, so "pending" alone says
nothing; what carries the proof is that every node which is pending and NOT yet generated
(`Active`) lies strictly above the node being visited (`visit_spec`).  When no node lies
strictly above itself the fault cannot happen, and the walk over any list of roots
(`walk_spec`) yields a list without repetitions, closed under the edges, in which each node
comes after everything it points at.

A set of nodes may be generated from the start.  They are never listed, and they must not
point anywhere for the list to be complete.
-/

namespace PbDepthFirst

open PbOrderedMap Relation

variable {V : Type} [LinearOrder V]

/-- Why a walk ends without an order. -/
inductive Fault
  | cycle
  | outOfFuel
  deriving DecidableEq, Repr

/-- The state of a walk. -/
structure Visit (V : Type) [LinearOrder V] where
  generated : OrderedSet V
  pending : OrderedSet V
  order : List V

/-- Visit a node: everything it points at first, then the node itself. -/
def visit (succ : V → List V) : Nat → Visit V → V → Except Fault (Visit V)
  | 0, _, _ => .error .outOfFuel
  | fuel + 1, s, n =>
      if n ∈ s.generated then .ok s
      else if n ∈ s.pending then .error .cycle
      else do
        let s' ← (succ n).foldlM
          (fun s m => if m = n then .ok s else visit succ fuel s m)
          { s with pending := s.pending.insert n () }
        .ok { s' with
          order := s'.order ++ [n]
          generated := s'.generated.insert n () }

/-- Visit a list of roots. -/
def walk (succ : V → List V) (fuel : Nat) (s : Visit V) (roots : List V) :
    Except Fault (Visit V) :=
  roots.foldlM (visit succ fuel) s

/-- The edges the walk follows. -/
def Points (succ : V → List V) (a b : V) : Prop := b ∈ succ a ∧ b ≠ a

/-- Each listed node comes after everything it points at that was not there at the start. -/
def Topological (succ : V → List V) (start : OrderedSet V) (order : List V) : Prop :=
  ∀ l x r, order = l ++ x :: r → ∀ y, Points succ x y → y ∈ start ∨ y ∈ l

/-- A pending node that is still waiting for what it points at. -/
def Active (s : Visit V) (p : V) : Prop := p ∈ s.pending ∧ p ∉ s.generated

/-- What every state of a walk satisfies. -/
structure Inv (succ : V → List V) (start : OrderedSet V) (s : Visit V) : Prop where
  generated : ∀ x, x ∈ s.generated ↔ x ∈ start ∨ x ∈ s.order
  nodup : s.order.Nodup
  fresh : ∀ x ∈ s.order, x ∉ start
  topological : Topological succ start s.order

theorem Topological.snoc {succ : V → List V} {start : OrderedSet V} {order : List V} {n : V}
    (h : Topological succ start order)
    (hn : ∀ y, Points succ n y → y ∈ start ∨ y ∈ order) :
    Topological succ start (order ++ [n]) := by
  intro l x r heq y hy
  rcases List.append_eq_append_iff.mp heq with ⟨t, ht, ht'⟩ | ⟨t, ht, ht'⟩
  · -- the split falls at or after the end of the old order
    cases t with
    | nil =>
        rw [List.append_nil] at ht
        obtain ⟨hx, _⟩ := List.cons.inj ht'
        subst hx
        rw [ht]
        exact hn y hy
    | cons z t =>
        obtain ⟨_, htail⟩ := List.cons.inj ht'
        have hlen := congrArg List.length htail
        simp at hlen
  · cases t with
    | nil =>
        rw [List.append_nil] at ht
        rw [List.nil_append] at ht'
        obtain ⟨hx, _⟩ := List.cons.inj ht'
        subst hx
        rw [← ht]
        exact hn y hy
    | cons z t =>
        obtain ⟨hz, _⟩ := List.cons.inj ht'
        subst hz
        exact h l x t ht y hy

/-- The nodes of a finite graph that are not pending yet. -/
def waiting (nodes : List V) (s : Visit V) : Nat :=
  (nodes.filter (fun x => x ∉ s.pending)).length

theorem waiting_mono {nodes : List V} {s s' : Visit V}
    (h : ∀ x, x ∈ s.pending → x ∈ s'.pending) : waiting nodes s' ≤ waiting nodes s := by
  apply List.Sublist.length_le
  apply List.monotone_filter_right
  intro x hx
  simp only [decide_eq_true_eq] at hx ⊢
  exact fun hp => hx (h x hp)

theorem waiting_insert {nodes : List V} {s : Visit V} {n : V} (hn : n ∈ nodes)
    (hnp : n ∉ s.pending) :
    waiting nodes { s with pending := s.pending.insert n () } < waiting nodes s := by
  unfold waiting
  induction nodes with
  | nil => exact absurd hn List.not_mem_nil
  | cons x rest ih =>
      have hrest : waiting rest { s with pending := s.pending.insert n () } ≤ waiting rest s :=
        waiting_mono (fun x hx => OrderedMap.mem_insert.mpr (Or.inr hx))
      unfold waiting at hrest
      by_cases hxn : x = n
      · subst hxn
        rw [List.filter_cons, List.filter_cons, if_neg (by simp), if_pos (by simpa using hnp),
          List.length_cons]
        omega
      · have hlt := ih (List.mem_of_ne_of_mem (fun h => hxn h.symm) hn)
        by_cases hp : x ∈ s.pending
        · rw [List.filter_cons, List.filter_cons, if_neg (by simp [hp]), if_neg (by simp [hp])]
          exact hlt
        · rw [List.filter_cons, List.filter_cons, if_pos (by simp [hp, hxn]),
            if_pos (by simp [hp]), List.length_cons, List.length_cons]
          omega

/-- What a finished visit of the nodes in `l` leaves behind. -/
structure Done (succ : V → List V) (start : OrderedSet V) (s s' : Visit V)
    (roots : List V) : Prop where
  inv : Inv succ start s'
  covered : ∀ n ∈ roots, n ∈ s'.generated
  kept : ∀ x, x ∈ s.generated → x ∈ s'.generated
  pending : ∀ x, x ∈ s.pending → x ∈ s'.pending
  active : ∀ p, Active s' p → Active s p
  reached : ∀ x ∈ s'.order, x ∈ s.order ∨ ∃ n ∈ roots, ReflTransGen (Points succ) n x

theorem Done.refl {succ : V → List V} {start : OrderedSet V} {s : Visit V}
    (h : Inv succ start s) : Done succ start s s [] :=
  ⟨h, fun _ hn => absurd hn List.not_mem_nil, fun _ h => h, fun _ h => h, fun _ h => h,
    fun _ h => Or.inl h⟩

theorem Done.cons {succ : V → List V} {start : OrderedSet V} {s t u : Visit V} {n : V}
    {roots : List V} (h : Done succ start s t [n]) (h' : Done succ start t u roots) :
    Done succ start s u (n :: roots) := by
  refine ⟨h'.inv, ?_, fun x hx => h'.kept x (h.kept x hx),
    fun x hx => h'.pending x (h.pending x hx), fun p hp => h.active p (h'.active p hp), ?_⟩
  · intro m hm
    rcases List.mem_cons.mp hm with rfl | hm
    · exact h'.kept m (h.covered m List.mem_cons_self)
    · exact h'.covered m hm
  · intro x hx
    rcases h'.reached x hx with hx | ⟨m, hm, hr⟩
    · rcases h.reached x hx with hx | ⟨m, hm, hr⟩
      · exact Or.inl hx
      · exact Or.inr ⟨m, List.mem_cons.mpr (Or.inl (List.mem_singleton.mp hm)), hr⟩
    · exact Or.inr ⟨m, List.mem_cons_of_mem _ hm, hr⟩

section Acyclic

variable {succ : V → List V} {start : OrderedSet V} {nodes : List V}

/-- Everything waiting lies strictly above `n`. -/
def Above (succ : V → List V) (s : Visit V) (n : V) : Prop :=
  ∀ p, Active s p → TransGen (Points succ) p n

/-- Visiting what `n` points at, one after the other, given that each single visit works. -/
theorem foldlM_spec {fuel : Nat} {n : V}
    (ih : ∀ (s : Visit V) (m : V), Inv succ start s → m ∈ nodes → Above succ s m →
      waiting nodes s < fuel → ∃ s', visit succ fuel s m = .ok s' ∧ Done succ start s s' [m])
    (hin : ∀ m ∈ succ n, m ∈ nodes) (l : List V) (hl : ∀ m ∈ l, m ∈ succ n) {s : Visit V}
    (hI : Inv succ start s) (habove : ∀ p, Active s p → p = n ∨ TransGen (Points succ) p n)
    (hfuel : waiting nodes s < fuel) :
    ∃ s', l.foldlM (fun s m => if m = n then .ok s else visit succ fuel s m) s = .ok s' ∧
      Done succ start s s' (l.filter (fun m => m ≠ n)) := by
  induction l generalizing s with
  | nil => exact ⟨s, rfl, Done.refl hI⟩
  | cons m rest ihl =>
      have hrest : ∀ x ∈ rest, x ∈ succ n := fun x hx => hl x (List.mem_cons_of_mem _ hx)
      have hm : m ∈ succ n := hl m List.mem_cons_self
      by_cases heq : m = n
      · obtain ⟨s', hs', hd⟩ := ihl hrest hI habove hfuel
        refine ⟨s', ?_, ?_⟩
        · rw [List.foldlM_cons, if_pos heq]
          exact hs'
        · rw [List.filter_cons_of_neg (by simpa using heq)]
          exact hd
      · have hstep : Points succ n m := ⟨hm, heq⟩
        have habove' : Above succ s m := by
          intro p hp
          rcases habove p hp with rfl | hpn
          · exact .single hstep
          · exact hpn.tail hstep
        obtain ⟨t, ht, hdt⟩ := ih s m hI (hin m hm) habove' hfuel
        obtain ⟨s', hs', hd⟩ := ihl hrest hdt.inv
          (fun p hp => habove p (hdt.active p hp))
          (lt_of_le_of_lt (waiting_mono hdt.pending) hfuel)
        refine ⟨s', ?_, ?_⟩
        · rw [List.foldlM_cons, if_neg heq, ht]
          exact hs'
        · rw [List.filter_cons_of_pos (by simpa using heq)]
          exact hdt.cons hd

/-- **A VISIT BELOW EVERYTHING THAT WAITS SUCCEEDS**: when all waiting nodes lie strictly
    above `n`, the visit of `n` generates it, after everything it points at. -/
theorem visit_spec (hacyc : ∀ n ∈ nodes, ¬ TransGen (Points succ) n n)
    (hin : ∀ n ∈ nodes, ∀ m ∈ succ n, m ∈ nodes) (fuel : Nat) (s : Visit V) (n : V)
    (hI : Inv succ start s) (hn : n ∈ nodes) (habove : Above succ s n)
    (hfuel : waiting nodes s < fuel) :
    ∃ s', visit succ fuel s n = .ok s' ∧ Done succ start s s' [n] := by
  induction fuel generalizing s n with
  | zero => omega
  | succ fuel ih =>
      rw [visit]
      by_cases hg : n ∈ s.generated
      · rw [if_pos hg]
        refine ⟨s, rfl, hI, ?_, fun _ h => h, fun _ h => h, fun _ h => h, fun _ h => Or.inl h⟩
        intro m hm
        rw [List.mem_singleton.mp hm]
        exact hg
      · -- a pending node that is not generated would lie strictly above itself
        have hp : n ∉ s.pending := fun hp => hacyc n hn (habove n ⟨hp, hg⟩)
        rw [if_neg hg, if_neg hp]
        have hI' : Inv succ start { s with pending := s.pending.insert n () } :=
          ⟨hI.generated, hI.nodup, hI.fresh, hI.topological⟩
        have hactive : ∀ p, Active { s with pending := s.pending.insert n () } p →
            p = n ∨ TransGen (Points succ) p n := by
          rintro p ⟨hpp, hpg⟩
          rcases OrderedMap.mem_insert.mp hpp with rfl | hpp
          · exact Or.inl rfl
          · exact Or.inr (habove p ⟨hpp, hpg⟩)
        obtain ⟨t, ht, hd⟩ := foldlM_spec ih (hin n hn) (succ n)
          (fun _ h => h) hI' hactive (by have := waiting_insert hn hp; omega)
        -- `n` is still waiting after its children, so it cannot be listed yet
        have hnt : n ∉ t.order := by
          intro hmem
          rcases hd.reached n hmem with hold | ⟨m, hm, hr⟩
          · exact hg ((hI.generated n).mpr (Or.inr hold))
          · obtain ⟨hms, hne⟩ := List.mem_filter.mp hm
            exact hacyc n hn (TransGen.head' ⟨hms, by simpa using hne⟩ hr)
        have hstart : n ∉ start := fun h => hg ((hI.generated n).mpr (Or.inl h))
        have hchildren : ∀ y, Points succ n y → y ∈ start ∨ y ∈ t.order := by
          rintro y ⟨hy, hne⟩
          exact (hd.inv.generated y).mp
            (hd.covered y (List.mem_filter.mpr ⟨hy, by simpa using hne⟩))
        refine ⟨{ t with order := t.order ++ [n], generated := t.generated.insert n () },
          ?_, ?_⟩
        · rw [ht]
          rfl
        · refine ⟨⟨?_, ?_, ?_, hd.inv.topological.snoc hchildren⟩, ?_, ?_, ?_, ?_, ?_⟩
          · intro x
            rw [OrderedMap.mem_insert, hd.inv.generated, List.mem_append, List.mem_singleton]
            tauto
          · rw [List.nodup_append]
            refine ⟨hd.inv.nodup, List.nodup_singleton n, ?_⟩
            intro a ha b hb hab
            exact hnt (List.mem_singleton.mp hb ▸ hab ▸ ha)
          · intro x hx
            rcases List.mem_append.mp hx with hx | hx
            · exact hd.inv.fresh x hx
            · exact List.mem_singleton.mp hx ▸ hstart
          · intro m hm
            exact OrderedMap.mem_insert.mpr (Or.inl (List.mem_singleton.mp hm))
          · intro x hx
            exact OrderedMap.mem_insert.mpr (Or.inr (hd.kept x hx))
          · intro x hx
            exact hd.pending x (OrderedMap.mem_insert.mpr (Or.inr hx))
          · rintro p ⟨hpp, hpg⟩
            have hpg' : p ≠ n ∧ p ∉ t.generated := by
              rw [OrderedMap.mem_insert] at hpg
              tauto
            obtain ⟨hpend, hgen⟩ := hd.active p ⟨hpp, hpg'.2⟩
            exact ⟨(OrderedMap.mem_insert.mp hpend).resolve_left hpg'.1, hgen⟩
          · intro x hx
            rcases List.mem_append.mp hx with hx | hx
            · rcases hd.reached x hx with hold | ⟨m, hm, hr⟩
              · exact Or.inl hold
              · obtain ⟨hms, hne⟩ := List.mem_filter.mp hm
                exact Or.inr ⟨n, List.mem_singleton_self n,
                  ReflTransGen.head ⟨hms, by simpa using hne⟩ hr⟩
            · rw [List.mem_singleton.mp hx]
              exact Or.inr ⟨n, List.mem_singleton_self n, .refl⟩

/-- The walk over the roots, from any state in which nothing waits. -/
theorem walk_done (hacyc : ∀ n ∈ nodes, ¬ TransGen (Points succ) n n)
    (hin : ∀ n ∈ nodes, ∀ m ∈ succ n, m ∈ nodes) {fuel : Nat} (roots : List V)
    (hroots : ∀ r ∈ roots, r ∈ nodes) {s : Visit V} (hI : Inv succ start s)
    (hidle : ∀ p, ¬ Active s p) (hfuel : waiting nodes s < fuel) :
    ∃ s', walk succ fuel s roots = .ok s' ∧ Done succ start s s' roots := by
  induction roots generalizing s with
  | nil => exact ⟨s, rfl, Done.refl hI⟩
  | cons r rest ih =>
      obtain ⟨t, ht, hd⟩ := visit_spec hacyc hin fuel s r hI
        (hroots r List.mem_cons_self) (fun p hp => absurd hp (hidle p)) hfuel
      obtain ⟨s', hs', hd'⟩ := ih (fun x hx => hroots x (List.mem_cons_of_mem _ hx)) hd.inv
        (fun p hp => hidle p (hd.active p hp))
        (lt_of_le_of_lt (waiting_mono hd.pending) hfuel)
      refine ⟨s', ?_, hd.cons hd'⟩
      rw [walk, List.foldlM_cons, ht]
      exact hs'

/-- A listed node lists everything it reaches, up to what was there at the start. -/
theorem Inv.closed {s : Visit V} (hI : Inv succ start s)
    (hstart : ∀ x ∈ start, ∀ y, ¬ Points succ x y) {a b : V} (ha : a ∈ s.generated)
    (h : ReflTransGen (Points succ) a b) : b ∈ s.generated := by
  induction h with
  | refl => exact ha
  | tail _ hstep ih =>
      rcases (hI.generated _).mp ih with hx | hx
      · exact absurd hstep (hstart _ hx _)
      · obtain ⟨l, r, hlr⟩ := List.append_of_mem hx
        rcases hI.topological l _ r hlr _ hstep with hy | hy
        · exact (hI.generated _).mpr (Or.inl hy)
        · refine (hI.generated _).mpr (Or.inr ?_)
          rw [hlr]
          exact List.mem_append_left _ hy

/-- **THE WALK ORDERS AN ACYCLIC GRAPH**: it ends without a fault, and its list has no
    repetitions, contains exactly what the roots reach and was not there at the start, and puts
    every node after everything it points at. -/
theorem walk_spec (hacyc : ∀ n ∈ nodes, ¬ TransGen (Points succ) n n)
    (hin : ∀ n ∈ nodes, ∀ m ∈ succ n, m ∈ nodes) {roots : List V}
    (hroots : ∀ r ∈ roots, r ∈ nodes)
    (hstart : ∀ x ∈ start, ∀ y, ¬ Points succ x y) {fuel : Nat}
    (hfuel : nodes.length < fuel) :
    ∃ s', walk succ fuel ⟨start, ∅, []⟩ roots = .ok s' ∧ s'.order.Nodup ∧
      (∀ x, x ∈ s'.order ↔
        x ∉ start ∧ ∃ r ∈ roots, ReflTransGen (Points succ) r x) ∧
      Topological succ start s'.order ∧
      ∀ x, x ∈ s'.generated ↔ x ∈ start ∨ x ∈ s'.order := by
  have hI : Inv succ start ⟨start, ∅, []⟩ := by
    refine ⟨fun x => by simp, List.nodup_nil, fun x hx => absurd hx List.not_mem_nil, ?_⟩
    intro l x r h
    simp at h
  have hidle : ∀ p, ¬ Active (⟨start, ∅, []⟩ : Visit V) p :=
    fun p hp => OrderedMap.not_mem_empty p hp.1
  have hwait : waiting nodes (⟨start, ∅, []⟩ : Visit V) < fuel :=
    lt_of_le_of_lt (List.length_filter_le _ _) hfuel
  obtain ⟨s', hs', hd⟩ := walk_done hacyc hin roots hroots hI hidle hwait
  refine ⟨s', hs', hd.inv.nodup, ?_, hd.inv.topological, hd.inv.generated⟩
  intro x
  constructor
  · intro hx
    exact ⟨hd.inv.fresh x hx, (hd.reached x hx).resolve_left List.not_mem_nil⟩
  · rintro ⟨hns, r, hr, hreach⟩
    have hgen := hd.inv.closed hstart (hd.covered r hr) hreach
    exact ((hd.inv.generated x).mp hgen).resolve_left hns

end Acyclic

end PbDepthFirst
