import PetaBricks.OrderedMapProofs
import Mathlib.Order.SupClosed
import Mathlib.Logic.Relation
import Mathlib.Logic.Function.Basic
import Mathlib.Algebra.BigOperators.Group.List.Basic
import Mathlib.Algebra.Order.BigOperators.Group.List
import Mathlib.Algebra.Order.Ring.Nat
import Mathlib.Algebra.Group.Action.Defs

/-!
# Saturation — the transitive closure of a labelled graph, round robin and in place

A table holds, under each node, the nodes it is known to depend on and a label for each of
them.  Saturation starts from the direct edges and visits the nodes again and again; a visit
joins into the table of a node the tables of everything the node already depends on, and
counts the joins that changed something.  It stops after the first round that counts nothing.

Labels live in a join semilattice with bottom, so the order of the visits, and the fact that a
visit reads tables the same round already rewrote, do not matter for the result:

  * everything ever in the table is `Derived` from the edges (`Derived` is closed under
    composing dependencies and under joins);
  * when a round counts nothing the table is `Saturated`: it contains the edges and absorbs the
    table of everything it mentions.

The two together pin the table down (`mem_iff_transGen`, `ideal_iff`).  That some round counts
nothing is a rank argument (`exists_saturate`): each counted join adds at least one to the
weight of the table, which the finitely many nodes and an upper bound of the labels limit.

The labels of the edges must differ from bottom.  A slot created with label bottom is a change
that the count does not see, and the loop could stop one round early.
-/

namespace PbSaturation

open PbOrderedMap Relation

variable {V L : Type} [LinearOrder V] [SemilatticeSup L] [OrderBot L] [DecidableEq L]

/-- Under each node, the labelled nodes it depends on. -/
abbrev Table (V L : Type) [LinearOrder V] := V → OrderedMap V L

/-- `n` has an edge to `k`. -/
def Edge (D : Table V L) (n k : V) : Prop := k ∈ D n

/-! ## Joining slots, and the order on maps -/

/-- Every slot of `m` is in `m'`, with a label that is no smaller. -/
def Below (m m' : OrderedMap V L) : Prop :=
  ∀ k v, m.find k = some v → ∃ v', m'.find k = some v' ∧ v ≤ v'

omit [OrderBot L] [DecidableEq L] in
theorem Below.refl (m : OrderedMap V L) : Below m m := fun _ v h => ⟨v, h, le_refl v⟩

omit [OrderBot L] [DecidableEq L] in
theorem Below.trans {a b c : OrderedMap V L} (hab : Below a b) (hbc : Below b c) :
    Below a c := by
  intro k v hv
  obtain ⟨v', hv', hle⟩ := hab k v hv
  obtain ⟨v'', hv'', hle'⟩ := hbc k v' hv'
  exact ⟨v'', hv'', hle.trans hle'⟩

/-- Join one slot into a map, counting it when the label there grew. -/
def joinEntry (s : OrderedMap V L × Nat) (e : V × L) : OrderedMap V L × Nat :=
  let old := (s.1.find e.1).getD ⊥
  (s.1.update e.1 (fun o => o.getD ⊥ ⊔ e.2), if old ⊔ e.2 = old then s.2 else s.2 + 1)

/-- Join a whole map into another one. -/
def joinAll (s : OrderedMap V L × Nat) (m : OrderedMap V L) : OrderedMap V L × Nat :=
  m.entries.foldl joinEntry s

theorem find_joinEntry (s : OrderedMap V L × Nat) (e : V × L) (b : V) :
    (joinEntry s e).1.find b =
      if b = e.1 then some ((s.1.find e.1).getD ⊥ ⊔ e.2) else s.1.find b :=
  s.1.find_update e.1 b _

theorem below_joinEntry (s : OrderedMap V L × Nat) (e : V × L) :
    Below s.1 (joinEntry s e).1 := by
  intro k v hv
  rw [find_joinEntry]
  by_cases hk : k = e.1
  · rw [if_pos hk]
    subst hk
    exact ⟨_, rfl, by rw [hv]; exact le_sup_left⟩
  · rw [if_neg hk]
    exact ⟨v, hv, le_refl v⟩

theorem joinEntry_absorbs (s : OrderedMap V L × Nat) (e : V × L) :
    ∃ v, (joinEntry s e).1.find e.1 = some v ∧ e.2 ≤ v :=
  ⟨_, (find_joinEntry s e e.1).trans (if_pos rfl), le_sup_right⟩

/-- An uncounted join of a label other than bottom changes nothing. -/
theorem joinEntry_of_not_counted {s : OrderedMap V L × Nat} {e : V × L}
    (hpos : e.2 ≠ ⊥) (h : (joinEntry s e).2 = s.2) : joinEntry s e = s := by
  have habs : (s.1.find e.1).getD ⊥ ⊔ e.2 = (s.1.find e.1).getD ⊥ := by
    by_contra hne
    have hcount : (joinEntry s e).2 = s.2 + 1 := if_neg hne
    omega
  have hmap : (joinEntry s e).1 = s.1 := by
    apply OrderedMap.ext_find
    intro b
    rw [find_joinEntry]
    by_cases hb : b = e.1
    · rw [if_pos hb, habs, hb]
      cases hf : s.1.find e.1 with
      | some v => rfl
      | none =>
          -- a missing slot would hold bottom, which cannot absorb the label
          rw [hf, Option.getD_none, bot_sup_eq] at habs
          exact absurd habs hpos
    · exact if_neg hb
  exact Prod.ext hmap h

theorem le_count_joinEntry (s : OrderedMap V L × Nat) (e : V × L) :
    s.2 ≤ (joinEntry s e).2 := by
  have hcount : (joinEntry s e).2 =
      if (s.1.find e.1).getD ⊥ ⊔ e.2 = (s.1.find e.1).getD ⊥ then s.2 else s.2 + 1 := rfl
  rw [hcount]
  split
  · exact le_refl _
  · exact Nat.le_succ _

/-! ## Visiting nodes -/

/-- Visit a node: start from its edges when its table is empty, then join in the tables of
    everything it depends on.  The counter reports the changes. -/
def relax (D I : Table V L) (n : V) : Table V L × Nat :=
  let seed := if (I n).entries = [] then (D n, (D n).entries.length) else (I n, 0)
  let out := seed.1.entries.foldl
    (fun s i => joinAll s (if i.1 = n then s.1 else I i.1)) seed
  (Function.update I n out.1, out.2)

/-- One round over the nodes. -/
def round (D : Table V L) (nodes : List V) (I : Table V L) : Table V L × Nat :=
  nodes.foldl (fun s n => ((relax D s.1 n).1, s.2 + (relax D s.1 n).2)) (I, 0)

/-- Rounds until one of them counts nothing; `none` when the fuel does not reach that far. -/
def saturate (D : Table V L) (nodes : List V) : Nat → Table V L → Option (Table V L)
  | 0, _ => none
  | fuel + 1, I =>
      if (round D nodes I).2 = 0 then some (round D nodes I).1
      else saturate D nodes fuel (round D nodes I).1

/-- More fuel gives the same table. -/
theorem saturate_mono {D : Table V L} {nodes : List V} {fuel fuel' : Nat}
    {I J : Table V L} (h : saturate D nodes fuel I = some J) (hle : fuel ≤ fuel') :
    saturate D nodes fuel' I = some J := by
  induction fuel generalizing fuel' I with
  | zero => cases h
  | succ fuel ih =>
      obtain ⟨k, rfl⟩ : ∃ k, fuel' = k + 1 := ⟨fuel' - 1, by omega⟩
      rw [saturate] at h ⊢
      by_cases hz : (round D nodes I).2 = 0
      · rw [if_pos hz] at h ⊢
        exact h
      · rw [if_neg hz] at h ⊢
        exact ih h (by omega)

/-! ## Soundness: everything in the table is derived from the edges -/

/-- The labelled dependencies that follow from the edges. -/
inductive Derived (D : Table V L) : V → V → L → Prop
  | edge {n k : V} {v : L} (h : (D n).find k = some v) : Derived D n k v
  | comp {n i k : V} {v w : L} (h : Derived D n i v) (h' : Derived D i k w) : Derived D n k w
  | join {n k : V} {v w : L} (h : Derived D n k v) (h' : Derived D n k w) :
      Derived D n k (v ⊔ w)

/-- No slot holds bottom. -/
def Positive (m : OrderedMap V L) : Prop := ∀ k v, m.find k = some v → v ≠ ⊥

/-- The edges of a list of nodes stay inside the list, and their labels differ from bottom.
    What the table holds under anything else does not matter. -/
structure ClosedGraph (D : Table V L) (nodes : List V) : Prop where
  target : ∀ n ∈ nodes, ∀ k ∈ D n, k ∈ nodes
  positive : ∀ n ∈ nodes, Positive (D n)

omit [DecidableEq L] in
theorem Derived.mem_nodes {D : Table V L} {nodes : List V} (hD : ClosedGraph D nodes)
    {n k : V} {v : L} (h : Derived D n k v) (hn : n ∈ nodes) : k ∈ nodes := by
  induction h with
  | edge h => exact hD.target _ hn _ (OrderedMap.mem_iff.mpr ⟨_, h⟩)
  | comp _ _ ih ih' => exact ih' (ih hn)
  | join _ _ ih _ => exact ih hn

omit [DecidableEq L] in
/-- A derived label is never bottom when no edge label is. -/
theorem Derived.ne_bot {D : Table V L} {nodes : List V} (hD : ClosedGraph D nodes)
    {n k : V} {v : L} (h : Derived D n k v) (hn : n ∈ nodes) : v ≠ ⊥ := by
  induction h with
  | edge h => exact hD.positive _ hn _ _ h
  | comp h _ _ ih => exact ih (h.mem_nodes hD hn)
  | join _ _ ih _ => exact fun hbot => ih hn (sup_eq_bot_iff.mp hbot).1

/-- All slots of a map are derived dependencies of `n`. -/
def SoundAt (D : Table V L) (n : V) (m : OrderedMap V L) : Prop :=
  ∀ k v, m.find k = some v → Derived D n k v

/-- The tables of the nodes are derived. -/
def Sound (D : Table V L) (nodes : List V) (I : Table V L) : Prop :=
  ∀ n ∈ nodes, SoundAt D n (I n)

theorem SoundAt.joinEntry {D : Table V L} {n : V} {s : OrderedMap V L × Nat} {e : V × L}
    (hs : SoundAt D n s.1) (he : Derived D n e.1 e.2) :
    SoundAt D n (joinEntry s e).1 := by
  intro k v hv
  rw [find_joinEntry] at hv
  by_cases hk : k = e.1
  · rw [if_pos hk] at hv
    subst hk
    cases hf : s.1.find e.1 with
    | none =>
        rw [hf, Option.getD_none, bot_sup_eq] at hv
        exact Option.some.inj hv ▸ he
    | some w =>
        rw [hf, Option.getD_some] at hv
        exact Option.some.inj hv ▸ (hs e.1 w hf).join he
  · rw [if_neg hk] at hv
    exact hs k v hv

/-- What a walk over the slots of a list of joins keeps: the map only grows, it absorbs every
    slot walked over, the count only grows, and no count means no change. -/
structure Grown (s s' : OrderedMap V L × Nat) : Prop where
  below : Below s.1 s'.1
  count : s.2 ≤ s'.2
  same : s'.2 = s.2 → s' = s

omit [OrderBot L] [DecidableEq L] in
theorem Grown.refl (s : OrderedMap V L × Nat) : Grown s s :=
  ⟨Below.refl s.1, le_refl _, fun _ => rfl⟩

omit [OrderBot L] [DecidableEq L] in
theorem Grown.trans {s t u : OrderedMap V L × Nat} (h : Grown s t) (h' : Grown t u) :
    Grown s u := by
  refine ⟨h.below.trans h'.below, h.count.trans h'.count, ?_⟩
  intro hu
  have hc := h.count
  have hc' := h'.count
  have hut : u = t := h'.same (by omega)
  rw [hut]
  exact h.same (by rw [← hut]; exact hu)

theorem grown_joinEntry (s : OrderedMap V L × Nat) {e : V × L} (hpos : e.2 ≠ ⊥) :
    Grown s (joinEntry s e) :=
  ⟨below_joinEntry s e, le_count_joinEntry s e, joinEntry_of_not_counted hpos⟩

/-- A list of joins: it grows the map, absorbs every slot and stays derived. -/
theorem joinList_spec {D : Table V L} {n : V} (l : List (V × L))
    (hpos : ∀ e ∈ l, e.2 ≠ ⊥) (hl : ∀ e ∈ l, Derived D n e.1 e.2)
    {s : OrderedMap V L × Nat} (hs : SoundAt D n s.1) :
    Grown s (l.foldl joinEntry s) ∧ SoundAt D n (l.foldl joinEntry s).1 ∧
      ∀ e ∈ l, ∃ v, (l.foldl joinEntry s).1.find e.1 = some v ∧ e.2 ≤ v := by
  induction l generalizing s with
  | nil => exact ⟨Grown.refl s, hs, fun e he => absurd he List.not_mem_nil⟩
  | cons e rest ih =>
      have he : Derived D n e.1 e.2 := hl e List.mem_cons_self
      obtain ⟨hg, hd, habs⟩ := ih (fun x hx => hpos x (List.mem_cons_of_mem _ hx))
        (fun x hx => hl x (List.mem_cons_of_mem _ hx)) (hs.joinEntry he)
      refine ⟨(grown_joinEntry s (hpos e List.mem_cons_self)).trans hg, hd, ?_⟩
      intro x hx
      rcases List.mem_cons.mp hx with rfl | hx
      · obtain ⟨v, hv, hle⟩ := joinEntry_absorbs s x
        obtain ⟨v', hv', hle'⟩ := hg.below _ v hv
        exact ⟨v', hv', hle.trans hle'⟩
      · exact habs x hx

/-- Joining a map: it grows, absorbs the map and stays derived. -/
theorem joinAll_spec {D : Table V L} {n : V} {m : OrderedMap V L} (hpos : Positive m)
    (hm : SoundAt D n m) {s : OrderedMap V L × Nat} (hs : SoundAt D n s.1) :
    Grown s (joinAll s m) ∧ SoundAt D n (joinAll s m).1 ∧ Below m (joinAll s m).1 := by
  obtain ⟨hg, hd, habs⟩ := joinList_spec (D := D) (n := n) m.entries
    (fun e he => hpos e.1 e.2 (OrderedMap.mem_entries.mp he))
    (fun e he => hm e.1 e.2 (OrderedMap.mem_entries.mp he)) hs
  exact ⟨hg, hd, fun k v hv => habs (k, v) (OrderedMap.mem_entries.mpr hv)⟩

omit [DecidableEq L] in
theorem SoundAt.positive {D : Table V L} {nodes : List V} (hD : ClosedGraph D nodes) {n : V}
    (hn : n ∈ nodes) {m : OrderedMap V L} (h : SoundAt D n m) : Positive m :=
  fun k v hv => (h k v hv).ne_bot hD hn

/-- The walk over a snapshot that joins in the live tables of the nodes it mentions. -/
theorem walk_spec {D I : Table V L} {nodes : List V} (hD : ClosedGraph D nodes)
    (hI : Sound D nodes I) {n : V} (hn : n ∈ nodes) (l : List (V × L)) (hl : ∀ e ∈ l, Derived D n e.1 e.2)
    {s : OrderedMap V L × Nat} (hs : SoundAt D n s.1) :
    let out := l.foldl (fun s i => joinAll s (if i.1 = n then s.1 else I i.1)) s
    Grown s out ∧ SoundAt D n out.1 ∧ ∀ e ∈ l, e.1 ≠ n → Below (I e.1) out.1 := by
  induction l generalizing s with
  | nil => exact ⟨Grown.refl s, hs, fun e he => absurd he List.not_mem_nil⟩
  | cons e rest ih =>
      have hlive : SoundAt D n (if e.1 = n then s.1 else I e.1) := by
        by_cases he : e.1 = n
        · rw [if_pos he]
          exact hs
        · rw [if_neg he]
          have hstep := hl e List.mem_cons_self
          exact fun k v hv => hstep.comp (hI e.1 (hstep.mem_nodes hD hn) k v hv)
      obtain ⟨hg, hd, habs⟩ := joinAll_spec (hlive.positive hD hn) hlive hs
      obtain ⟨hg', hd', habs'⟩ := ih (fun x hx => hl x (List.mem_cons_of_mem _ hx)) hd
      refine ⟨hg.trans hg', hd', ?_⟩
      intro x hx hne
      rcases List.mem_cons.mp hx with rfl | hx
      · have hx : Below (I x.1) (if x.1 = n then s.1 else I x.1) := by
          rw [if_neg hne]
          exact Below.refl _
        exact hx.trans (habs.trans hg'.below)
      · exact habs' x hx hne

/-- Where a visit starts from. -/
def seed (D I : Table V L) (n : V) : OrderedMap V L × Nat :=
  if (I n).entries = [] then (D n, (D n).entries.length) else (I n, 0)

omit [OrderBot L] [DecidableEq L] in
theorem seed_sound {D I : Table V L} {nodes : List V} (hI : Sound D nodes I) {n : V}
    (hn : n ∈ nodes) : SoundAt D n (seed D I n).1 := by
  rw [seed]
  by_cases h : (I n).entries = []
  · rw [if_pos h]
    exact fun k v hv => .edge hv
  · rw [if_neg h]
    exact hI n hn

/-- Each table is still empty or already contains the edges. -/
def Seeded (D : Table V L) (nodes : List V) (I : Table V L) : Prop :=
  ∀ n ∈ nodes, (I n).entries = [] ∨ Below (D n) (I n)

omit [OrderBot L] [DecidableEq L] in
theorem below_seed {D I : Table V L} {nodes : List V} (hS : Seeded D nodes I) {n : V}
    (hn : n ∈ nodes) : Below (D n) (seed D I n).1 := by
  rw [seed]
  by_cases h : (I n).entries = []
  · rw [if_pos h]
    exact Below.refl _
  · rw [if_neg h]
    exact (hS n hn).resolve_left h

/-- **WHAT ONE VISIT DOES**: the table of the visited node grows, stays derived, contains the
    edges and absorbs what it depended on; the other tables stay.  When nothing was counted
    nothing changed. -/
theorem relax_spec {D I : Table V L} {nodes : List V} (hD : ClosedGraph D nodes)
    (hI : Sound D nodes I) (hS : Seeded D nodes I) {n : V} (hn : n ∈ nodes) :
    ∃ out : OrderedMap V L × Nat, relax D I n = (Function.update I n out.1, out.2) ∧
      Grown (seed D I n) out ∧ SoundAt D n out.1 ∧ Below (D n) out.1 ∧
      (out.2 = 0 → out.1 = I n ∧ ∀ i ∈ I n, Below (I i) (I n)) := by
  have hseed := seed_sound hI hn
  obtain ⟨hg, hd, habs⟩ := walk_spec hD hI hn (seed D I n).1.entries
    (fun e he => hseed e.1 e.2 (OrderedMap.mem_entries.mp he)) hseed
  refine ⟨_, rfl, hg, hd, (below_seed hS hn).trans hg.below, ?_⟩
  intro hzero
  change ((seed D I n).1.entries.foldl _ (seed D I n)).2 = 0 at hzero
  have hcount := hg.count
  have hsame := hg.same (by omega)
  -- an uncounted visit had nothing to seed either
  have hstart : (seed D I n).1 = I n := by
    rw [seed]
    by_cases h : (I n).entries = []
    · have hlen : (seed D I n).2 = (D n).entries.length := by rw [seed, if_pos h]
      have hDn : (D n).entries = [] := List.length_eq_zero_iff.mp (by omega)
      rw [if_pos h]
      apply OrderedMap.ext_find
      intro k
      rw [OrderedMap.not_mem_iff.mp (OrderedMap.entries_eq_nil.mp hDn k),
        OrderedMap.not_mem_iff.mp (OrderedMap.entries_eq_nil.mp h k)]
    · rw [if_neg h]
  refine ⟨(congrArg Prod.fst hsame).trans hstart, ?_⟩
  intro i hi
  by_cases hin : i = n
  · subst hin
    exact Below.refl _
  · obtain ⟨v, hv⟩ := OrderedMap.mem_iff.mp hi
    have he : (i, v) ∈ (seed D I n).1.entries := by
      rw [hstart]
      exact OrderedMap.mem_entries.mpr hv
    have := habs (i, v) he hin
    rw [hsame, hstart] at this
    exact this

/-- The table of `n` contains its edges and absorbs the table of everything it mentions. -/
def ClosedAt (D I : Table V L) (n : V) : Prop :=
  Below (D n) (I n) ∧ ∀ i ∈ I n, Below (I i) (I n)

/-- The tables of all the nodes are closed. -/
def Saturated (D : Table V L) (nodes : List V) (I : Table V L) : Prop :=
  ∀ n ∈ nodes, ClosedAt D I n

theorem relax_sound {D I : Table V L} {nodes : List V} (hD : ClosedGraph D nodes)
    (hI : Sound D nodes I) (hS : Seeded D nodes I) {n : V} (hn : n ∈ nodes) :
    Sound D nodes (relax D I n).1 ∧ Seeded D nodes (relax D I n).1 := by
  obtain ⟨out, ho, _, hd, hb, _⟩ := relax_spec hD hI hS hn
  have htable : (relax D I n).1 = Function.update I n out.1 := congrArg Prod.fst ho
  rw [htable]
  constructor
  · intro i hmem
    by_cases hi : i = n
    · subst hi
      rw [Function.update_self]
      exact hd
    · rw [Function.update_of_ne hi]
      exact hI i hmem
  · intro i hmem
    by_cases hi : i = n
    · subst hi
      rw [Function.update_self]
      exact Or.inr hb
    · rw [Function.update_of_ne hi]
      exact hS i hmem

theorem relax_of_not_counted {D I : Table V L} {nodes : List V} (hD : ClosedGraph D nodes)
    (hI : Sound D nodes I) (hS : Seeded D nodes I) {n : V} (hn : n ∈ nodes) (h : (relax D I n).2 = 0) :
    (relax D I n).1 = I ∧ ClosedAt D I n := by
  obtain ⟨out, ho, _, _, hb, hz⟩ := relax_spec hD hI hS hn
  rw [ho] at h ⊢
  obtain ⟨heq, hcl⟩ := hz h
  refine ⟨?_, heq ▸ hb, hcl⟩
  show Function.update I n out.1 = I
  rw [heq, Function.update_eq_self]

/-- A round over some of the nodes keeps the tables derived, and is a stop when it counts
    nothing. -/
theorem round_spec {D : Table V L} {nodes : List V} (hD : ClosedGraph D nodes) (l : List V)
    (hl : ∀ n ∈ l, n ∈ nodes) {s : Table V L × Nat} (hI : Sound D nodes s.1)
    (hS : Seeded D nodes s.1) :
    let out := l.foldl (fun s n => ((relax D s.1 n).1, s.2 + (relax D s.1 n).2)) s
    Sound D nodes out.1 ∧ Seeded D nodes out.1 ∧ s.2 ≤ out.2 ∧
      (out.2 = s.2 → out.1 = s.1 ∧ Saturated D l s.1) := by
  induction l generalizing s with
  | nil => exact ⟨hI, hS, le_refl _, fun _ => ⟨rfl, fun n hn => absurd hn List.not_mem_nil⟩⟩
  | cons n rest ih =>
      have hn : n ∈ nodes := hl n List.mem_cons_self
      obtain ⟨hI', hS'⟩ := relax_sound hD hI hS hn
      obtain ⟨h1, h2, h3, h4⟩ :=
        ih (fun x hx => hl x (List.mem_cons_of_mem _ hx))
          (s := ((relax D s.1 n).1, s.2 + (relax D s.1 n).2)) hI' hS'
      refine ⟨h1, h2, le_trans (Nat.le_add_right _ _) h3, ?_⟩
      intro hz
      rw [List.foldl_cons] at hz
      have hle : s.2 + (relax D s.1 n).2 ≤ s.2 := le_of_le_of_eq h3 hz
      have hzero : (relax D s.1 n).2 = 0 := by omega
      obtain ⟨heq, hcl⟩ := relax_of_not_counted hD hI hS hn hzero
      obtain ⟨h5, h6⟩ := h4 (by simpa [hzero] using hz)
      refine ⟨h5.trans heq, ?_⟩
      intro i hi
      rcases List.mem_cons.mp hi with rfl | hi
      · exact hcl
      · have := h6 i hi
        rwa [heq] at this

/-- **A TABLE THE LOOP RETURNS IS DERIVED AND SATURATED**. -/
theorem saturate_spec {D : Table V L} {nodes : List V} (hD : ClosedGraph D nodes)
    {fuel : Nat} {I J : Table V L} (hI : Sound D nodes I) (hS : Seeded D nodes I)
    (h : saturate D nodes fuel I = some J) : Sound D nodes J ∧ Saturated D nodes J := by
  induction fuel generalizing I with
  | zero => cases h
  | succ fuel ih =>
      obtain ⟨h1, h2, _, h4⟩ := round_spec hD nodes (fun _ h => h) (s := (I, 0)) hI hS
      rw [saturate] at h
      by_cases hz : (round D nodes I).2 = 0
      · rw [if_pos hz] at h
        obtain ⟨heq, hsat⟩ := h4 hz
        have hJ : J = I := (Option.some.inj h).symm.trans heq
        rw [hJ]
        exact ⟨hI, hsat⟩
      · rw [if_neg hz] at h
        exact ih h1 h2 h

/-! ## The loop stops -/

/-- What a map weighs: one for each slot, and the rank of its label. -/
def weight (rank : L → Nat) (m : OrderedMap V L) : Nat :=
  (m.entries.map (fun e => 1 + rank e.2)).sum

omit [SemilatticeSup L] [OrderBot L] [DecidableEq L] in
/-- Overwriting a slot changes the weight by what the slot gains. -/
theorem weight_upsert (rank : L → Nat) (k : V) (f : Option L → L) {l : List (V × L)}
    (hl : Sorted l) :
    ((upsert k f l).map (fun e => 1 + rank e.2)).sum +
        ((lookup k l).elim 0 (fun v => 1 + rank v)) =
      (l.map (fun e => 1 + rank e.2)).sum + (1 + rank (f (lookup k l))) := by
  induction l with
  | nil => rw [upsert, lookup]; simp
  | cons e rest ih =>
      obtain ⟨k', v⟩ := e
      obtain ⟨hx, hrest⟩ := List.pairwise_cons.mp hl
      rw [upsert]
      by_cases hlt : k < k'
      · have hfresh : lookup k ((k', v) :: rest) = none := by
          apply lookup_of_lt
          intro e he
          rcases List.mem_cons.mp he with he | he
          · exact he ▸ hlt
          · exact hlt.trans (hx e he)
        rw [if_pos hlt, hfresh]
        simp only [List.map_cons, List.sum_cons, Option.elim_none]
        omega
      · rw [if_neg hlt]
        by_cases heq : k = k'
        · rw [if_pos heq, lookup, if_pos heq]
          simp only [List.map_cons, List.sum_cons, Option.elim_some]
          omega
        · rw [if_neg heq, lookup, if_neg heq]
          have := ih hrest
          simp only [List.map_cons, List.sum_cons]
          omega

/-- A counted join adds at least one to the weight, and no join lowers it. -/
theorem weight_joinEntry {rank : L → Nat} (hr : StrictMono rank)
    (s : OrderedMap V L × Nat) (e : V × L) :
    weight rank s.1 + ((joinEntry s e).2 - s.2) ≤ weight rank (joinEntry s e).1 := by
  have hw := weight_upsert rank e.1 (fun o => o.getD ⊥ ⊔ e.2) s.1.sorted
  change weight rank (joinEntry s e).1 + ((s.1.find e.1).elim 0 _) =
    weight rank s.1 + (1 + rank ((s.1.find e.1).getD ⊥ ⊔ e.2)) at hw
  have hcount : (joinEntry s e).2 =
      if (s.1.find e.1).getD ⊥ ⊔ e.2 = (s.1.find e.1).getD ⊥ then s.2 else s.2 + 1 := rfl
  rw [hcount]
  cases hf : s.1.find e.1 with
  | none =>
      rw [hf] at hw
      simp only [Option.elim_none] at hw
      split <;> omega
  | some v =>
      rw [hf] at hw
      simp only [Option.elim_some, Option.getD_some] at hw ⊢
      by_cases heq : v ⊔ e.2 = v
      · rw [if_pos heq]
        rw [heq] at hw
        omega
      · rw [if_neg heq]
        have : rank v < rank (v ⊔ e.2) := hr (lt_of_le_of_ne le_sup_left (Ne.symm heq))
        omega

theorem weight_joinAll {rank : L → Nat} (hr : StrictMono rank)
    (s : OrderedMap V L × Nat) (l : List (V × L)) :
    weight rank s.1 + ((l.foldl joinEntry s).2 - s.2) ≤
        weight rank (l.foldl joinEntry s).1 ∧ s.2 ≤ (l.foldl joinEntry s).2 := by
  induction l generalizing s with
  | nil => simp
  | cons e rest ih =>
      obtain ⟨h1, h2⟩ := ih (joinEntry s e)
      have h3 := weight_joinEntry hr s e
      have h4 := le_count_joinEntry s e
      rw [List.foldl_cons]
      omega

theorem weight_walk {rank : L → Nat} (hr : StrictMono rank) (I : Table V L) (n : V)
    (l : List (V × L)) (s : OrderedMap V L × Nat) :
    let out := l.foldl (fun s i => joinAll s (if i.1 = n then s.1 else I i.1)) s
    weight rank s.1 + (out.2 - s.2) ≤ weight rank out.1 ∧ s.2 ≤ out.2 := by
  induction l generalizing s with
  | nil => simp
  | cons e rest ih =>
      obtain ⟨h1, h2⟩ := ih (joinAll s (if e.1 = n then s.1 else I e.1))
      obtain ⟨h3, h4⟩ := weight_joinAll hr s (if e.1 = n then s.1 else I e.1).entries
      simp only [List.foldl_cons]
      change weight rank s.1 + ((joinAll s _).2 - s.2) ≤ weight rank (joinAll s _).1 at h3
      change s.2 ≤ (joinAll s _).2 at h4
      omega

omit [SemilatticeSup L] [OrderBot L] [DecidableEq L] in
theorem length_le_weight (rank : L → Nat) (m : OrderedMap V L) :
    m.entries.length ≤ weight rank m := by
  unfold weight
  induction m.entries with
  | nil => simp
  | cons e rest ih =>
      rw [List.map_cons, List.sum_cons, List.length_cons]
      omega

/-- A visit adds to the weight of the node it visits at least what it counts. -/
theorem weight_relax {rank : L → Nat} (hr : StrictMono rank) (D I : Table V L) (n : V) :
    weight rank (I n) + (relax D I n).2 ≤ weight rank ((relax D I n).1 n) := by
  obtain ⟨h1, h2⟩ := weight_walk hr I n (seed D I n).1.entries (seed D I n)
  have hself : (relax D I n).1 n = ((seed D I n).1.entries.foldl
      (fun s i => joinAll s (if i.1 = n then s.1 else I i.1)) (seed D I n)).1 :=
    Function.update_self ..
  have hcount : (relax D I n).2 = ((seed D I n).1.entries.foldl
      (fun s i => joinAll s (if i.1 = n then s.1 else I i.1)) (seed D I n)).2 := rfl
  have hstart : weight rank (I n) + (seed D I n).2 ≤ weight rank (seed D I n).1 := by
    rw [seed]
    by_cases h : (I n).entries = []
    · have hzero : weight rank (I n) = 0 := by rw [weight, h]; rfl
      rw [if_pos h, hzero, Nat.zero_add]
      exact length_le_weight rank (D n)
    · rw [if_neg h]
      exact le_refl _
  rw [hself, hcount]
  omega

/-- What the tables of the nodes weigh together. -/
def total (rank : L → Nat) (nodes : List V) (I : Table V L) : Nat :=
  (nodes.map (fun n => weight rank (I n))).sum

omit [SemilatticeSup L] [OrderBot L] [DecidableEq L] in
theorem total_mono {rank : L → Nat} {nodes : List V} {I J : Table V L}
    (h : ∀ n, weight rank (I n) ≤ weight rank (J n)) :
    total rank nodes I ≤ total rank nodes J :=
  List.sum_le_sum (fun n _ => h n)

omit [SemilatticeSup L] [OrderBot L] [DecidableEq L] in
theorem total_add_le {rank : L → Nat} {nodes : List V} {I J : Table V L} {n : V} {d : Nat}
    (hn : n ∈ nodes) (h : ∀ i, weight rank (I i) ≤ weight rank (J i))
    (hd : weight rank (I n) + d ≤ weight rank (J n)) :
    total rank nodes I + d ≤ total rank nodes J := by
  induction nodes with
  | nil => exact absurd hn List.not_mem_nil
  | cons i rest ih =>
      rw [total, total, List.map_cons, List.map_cons, List.sum_cons, List.sum_cons]
      rcases List.mem_cons.mp hn with rfl | hn
      · have : total rank rest I ≤ total rank rest J := total_mono h
        rw [total, total] at this
        omega
      · have := ih hn
        rw [total, total] at this
        have := h i
        omega

/-- A visit to one of the nodes adds to the total at least what it counts. -/
theorem total_relax {rank : L → Nat} (hr : StrictMono rank) {D I : Table V L}
    {nodes : List V} {n : V} (hn : n ∈ nodes) :
    total rank nodes I + (relax D I n).2 ≤ total rank nodes (relax D I n).1 := by
  have hw := weight_relax hr D I n
  apply total_add_le hn _ hw
  intro i
  by_cases hi : i = n
  · subst hi
    omega
  · have : (relax D I n).1 i = I i := Function.update_of_ne hi ..
    rw [this]

theorem total_round {rank : L → Nat} (hr : StrictMono rank) {D : Table V L}
    {nodes : List V} (l : List V) (hl : ∀ n ∈ l, n ∈ nodes) (s : Table V L × Nat) :
    let out := l.foldl (fun s n => ((relax D s.1 n).1, s.2 + (relax D s.1 n).2)) s
    total rank nodes s.1 + (out.2 - s.2) ≤ total rank nodes out.1 ∧ s.2 ≤ out.2 := by
  induction l generalizing s with
  | nil => simp
  | cons n rest ih =>
      obtain ⟨h1, h2⟩ := ih (fun x hx => hl x (List.mem_cons_of_mem _ hx))
        ((relax D s.1 n).1, s.2 + (relax D s.1 n).2)
      have h3 := total_relax hr (D := D) (I := s.1) (hl n List.mem_cons_self)
      simp only [List.foldl_cons]
      simp only at h1 h2
      omega

/-- The loop stops once the weight it may still add is used up. -/
theorem exists_saturate_of_bound {rank : L → Nat} (hr : StrictMono rank)
    {D : Table V L} {nodes : List V} (hD : ClosedGraph D nodes) {B : Nat}
    (hB : ∀ I, Sound D nodes I → total rank nodes I ≤ B) (m : Nat) {I : Table V L}
    (hI : Sound D nodes I) (hS : Seeded D nodes I) (hm : B - total rank nodes I < m) :
    ∃ J, saturate D nodes m I = some J := by
  induction m generalizing I with
  | zero => omega
  | succ m ih =>
      obtain ⟨h1, h2, _, _⟩ := round_spec hD nodes (fun _ h => h) (s := (I, 0)) hI hS
      obtain ⟨hgain, _⟩ := total_round hr (D := D) nodes (fun n hn => hn) (I, 0)
      rw [saturate]
      by_cases hz : (round D nodes I).2 = 0
      · exact ⟨_, if_pos hz⟩
      · rw [if_neg hz]
        apply ih h1 h2
        have hround : total rank nodes I + (round D nodes I).2 ≤
            total rank nodes (round D nodes I).1 := by
          have := hgain
          simp only [Nat.sub_zero] at this
          exact this
        have hb := hB _ h1
        have hb' := hB _ hI
        have hlow : total rank nodes (round D nodes I).1 ≤ B := hb
        change B - total rank nodes (round D nodes I).1 < m
        omega

omit [DecidableEq L] in
/-- Any bound of the edge labels bounds the derived ones. -/
theorem Derived.le_of_edges {D : Table V L} {nodes : List V} (hD : ClosedGraph D nodes)
    {u : L} (hu : ∀ n ∈ nodes, ∀ k v, (D n).find k = some v → v ≤ u) {n k : V} {v : L}
    (h : Derived D n k v) (hn : n ∈ nodes) : v ≤ u := by
  induction h with
  | edge h => exact hu _ hn _ _ h
  | comp h _ _ ih => exact ih (h.mem_nodes hD hn)
  | join _ _ ih ih' => exact sup_le (ih hn) (ih' hn)

omit [OrderBot L] [DecidableEq L] in
/-- Derived dependencies are chains of edges. -/
theorem Derived.transGen {D : Table V L} {n k : V} {v : L} (h : Derived D n k v) :
    TransGen (Edge D) n k := by
  induction h with
  | edge h => exact .single (OrderedMap.mem_iff.mpr ⟨_, h⟩)
  | comp _ _ ih ih' => exact ih.trans ih'
  | join _ _ ih _ => exact ih

omit [DecidableEq L] in
/-- The finitely many edge labels have an upper bound. -/
theorem exists_label_bound (D : Table V L) (nodes : List V) :
    ∃ u, ∀ n ∈ nodes, ∀ k v, (D n).find k = some v → v ≤ u := by
  have hlist : ∀ l : List L, ∃ u, ∀ v ∈ l, v ≤ u := by
    intro l
    induction l with
    | nil => exact ⟨⊥, fun v hv => absurd hv List.not_mem_nil⟩
    | cons w rest ih =>
        obtain ⟨u, hu⟩ := ih
        refine ⟨w ⊔ u, ?_⟩
        intro v hv
        rcases List.mem_cons.mp hv with rfl | hv
        · exact le_sup_left
        · exact (hu v hv).trans le_sup_right
  obtain ⟨u, hu⟩ := hlist (nodes.flatMap (fun n => (D n).entries.map Prod.snd))
  refine ⟨u, ?_⟩
  intro n hn k v hv
  exact hu v (List.mem_flatMap.mpr
    ⟨n, hn, List.mem_map.mpr ⟨(k, v), OrderedMap.mem_entries.mpr hv, rfl⟩⟩)

omit [OrderBot L] [DecidableEq L] [SemilatticeSup L] in
theorem weight_le_of_rank {rank : L → Nat} {R : Nat} {m : OrderedMap V L}
    (h : ∀ k v, m.find k = some v → rank v ≤ R) :
    weight rank m ≤ m.keys.length * (1 + R) := by
  have hsum : ∀ x ∈ m.entries.map (fun e => 1 + rank e.2), x ≤ 1 + R := by
    intro x hx
    obtain ⟨e, he, rfl⟩ := List.mem_map.mp hx
    have := h e.1 e.2 (OrderedMap.mem_entries.mp he)
    omega
  have := List.sum_le_card_nsmul _ _ hsum
  rw [weight, OrderedMap.keys, List.length_map]
  rw [List.length_map, smul_eq_mul] at this
  exact this

/-- **THE LOOP STOPS** on a finite graph: with enough fuel, and then with any more, it
    returns a table. -/
theorem exists_saturate {rank : L → Nat} (hr : StrictMono rank) {D : Table V L}
    {nodes : List V} (hD : ClosedGraph D nodes) {I : Table V L} (hI : Sound D nodes I)
    (hS : Seeded D nodes I) : ∃ fuel J, saturate D nodes fuel I = some J := by
  obtain ⟨u, hu⟩ := exists_label_bound D nodes
  have hbound : ∀ J, Sound D nodes J →
      total rank nodes J ≤ nodes.length * (nodes.length * (1 + rank u)) := by
    intro J hJ
    have hone : ∀ n ∈ nodes, weight rank (J n) ≤ nodes.length * (1 + rank u) := by
      intro n hn
      have hkeys : (J n).keys.length ≤ nodes.length := by
        apply (List.subperm_of_subset (J n).keys_nodup _).length_le
        intro k hk
        obtain ⟨v, hv⟩ := OrderedMap.mem_iff.mp (OrderedMap.mem_keys.mp hk)
        exact (hJ n hn k v hv).mem_nodes hD hn
      have := weight_le_of_rank (R := rank u)
        (fun k v hv => hr.monotone ((hJ n hn k v hv).le_of_edges hD hu hn))
      exact this.trans (Nat.mul_le_mul_right _ hkeys)
    have := List.sum_le_card_nsmul (nodes.map (fun n => weight rank (J n)))
      (nodes.length * (1 + rank u)) (by
        intro x hx
        obtain ⟨n, hn, rfl⟩ := List.mem_map.mp hx
        exact hone n hn)
    rw [List.length_map, smul_eq_mul] at this
    exact this
  exact ⟨_, exists_saturate_of_bound hr hD hbound _ hI hS (Nat.lt_succ_self _)⟩

/-! ## What a saturated table says -/

section Saturated

variable {D I : Table V L} {nodes : List V}

omit [DecidableEq L] in
/-- Chains of edges stay among the nodes. -/
theorem ClosedGraph.mem_of_reflTransGen (hD : ClosedGraph D nodes) {n k : V} (hn : n ∈ nodes)
    (h : ReflTransGen (Edge D) n k) : k ∈ nodes := by
  induction h with
  | refl => exact hn
  | tail _ hedge ih => exact hD.target _ ih _ hedge

omit [DecidableEq L] in
/-- Chains of edges from a node are in its table. -/
theorem mem_of_transGen (hD : ClosedGraph D nodes) (hJ : Saturated D nodes I)
    {n k : V} (hn : n ∈ nodes) (h : TransGen (Edge D) n k) : k ∈ I n := by
  induction h using TransGen.head_induction_on with
  | single hedge =>
      obtain ⟨v, hv⟩ := OrderedMap.mem_iff.mp hedge
      obtain ⟨v', hv', _⟩ := (hJ _ hn).1 _ _ hv
      exact OrderedMap.mem_iff.mpr ⟨v', hv'⟩
  | head hedge _ ih =>
      obtain ⟨v, hv⟩ := OrderedMap.mem_iff.mp (ih (hD.target _ hn _ hedge))
      obtain ⟨w, hw⟩ := OrderedMap.mem_iff.mp hedge
      obtain ⟨w', hw', _⟩ := (hJ _ hn).1 _ _ hw
      obtain ⟨v', hv', _⟩ := (hJ _ hn).2 _ (OrderedMap.mem_iff.mpr ⟨w', hw'⟩) _ _ hv
      exact OrderedMap.mem_iff.mpr ⟨v', hv'⟩

omit [DecidableEq L] in
/-- **THE KEYS OF A SATURATED TABLE ARE THE TRANSITIVE CLOSURE**. -/
theorem mem_iff_transGen (hD : ClosedGraph D nodes) (hI : Sound D nodes I)
    (hJ : Saturated D nodes I) {n k : V} (hn : n ∈ nodes) :
    k ∈ I n ↔ TransGen (Edge D) n k := by
  constructor
  · intro hk
    obtain ⟨v, hv⟩ := OrderedMap.mem_iff.mp hk
    exact (hI n hn k v hv).transGen
  · exact mem_of_transGen hD hJ hn

omit [DecidableEq L] in
/-- Each edge into `k` from what `n` reaches is under the label of `k`. -/
theorem edge_le_label (hD : ClosedGraph D nodes) (hJ : Saturated D nodes I)
    {n y k : V} {v w : L} (hn : n ∈ nodes) (hy : ReflTransGen (Edge D) n y)
    (hw : (D y).find k = some w) (hv : (I n).find k = some v) : w ≤ v := by
  rcases Relation.reflTransGen_iff_eq_or_transGen.mp hy with rfl | hreach
  · obtain ⟨v', hv', hle⟩ := (hJ _ hn).1 _ _ hw
    rw [hv] at hv'
    exact Option.some.inj hv' ▸ hle
  · have hyn := hD.mem_of_reflTransGen hn hy
    obtain ⟨v', hv', hle⟩ := (hJ _ hyn).1 _ _ hw
    obtain ⟨v'', hv'', hle'⟩ := (hJ _ hn).2 y (mem_of_transGen hD hJ hn hreach) _ _ hv'
    rw [hv] at hv''
    exact Option.some.inj hv'' ▸ hle.trans hle'

omit [OrderBot L] [DecidableEq L] in
/-- A set of labels closed under joins that contains the edge labels into `k` contains every
    label derived for `k`. -/
theorem Derived.mem_of_edges {P : Set L} (hP : SupClosed P) {n k : V} {v : L}
    (h : Derived D n k v)
    (hedges : ∀ y w, ReflTransGen (Edge D) n y → (D y).find k = some w → w ∈ P) :
    v ∈ P := by
  induction h with
  | edge h => exact hedges _ _ .refl h
  | comp h _ _ ih' =>
      apply ih'
      intro y w hy hw
      exact hedges y w (h.transGen.to_reflTransGen.trans hy) hw
  | join _ _ ih ih' => exact hP (ih hedges) (ih' hedges)

omit [DecidableEq L] in
/-- **THE LABEL OF A SATURATED TABLE IS THE JOIN OF THE EDGES IT STANDS FOR**: it lies in an
    ideal exactly when every edge into `k` from what `n` reaches does. -/
theorem ideal_iff (hD : ClosedGraph D nodes) (hI : Sound D nodes I)
    (hJ : Saturated D nodes I) {P : Set L} (hP : SupClosed P) (hlow : IsLowerSet P)
    {n k : V} {v : L} (hn : n ∈ nodes) (hv : (I n).find k = some v) :
    v ∈ P ↔ ∀ y w, ReflTransGen (Edge D) n y → (D y).find k = some w → w ∈ P := by
  constructor
  · intro hmem y w hy hw
    exact hlow (edge_le_label hD hJ hn hy hw hv) hmem
  · exact (hI n hn k v hv).mem_of_edges hP

end Saturated

end PbSaturation
