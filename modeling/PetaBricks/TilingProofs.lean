import Mathlib.Order.CompletePartialOrder
import Mathlib.Order.Interval.Set.Basic
import Mathlib.Data.Set.NAry
import Mathlib.Data.Set.Lattice
import Mathlib.Data.List.Forall2

/-!
# Tilings — cutting an interval, and cutting a box side by side

A list of pieces PARTITIONS a set when the pieces are pairwise disjoint and their union is
the set.  Two ways to get one:

  * intervals laid end to end partition the interval from the first start to the last end
    (`Tiles.partitions`);
  * cutting the first side of a box and then, piece by piece, the remaining sides (in a way
    that may differ from piece to piece) partitions the box (`Partitions.product`).

Points of a box are lists of coordinates, one for each side.
-/

namespace PbTiling

variable {α X ι κ μ : Type}

/-! ## Partitions of a set -/

/-- The pieces of the members of `l` are pairwise disjoint and cover exactly `S`. -/
structure Partitions (cell : ι → Set X) (l : List ι) (S : Set X) : Prop where
  disjoint : l.Pairwise (fun i j => Disjoint (cell i) (cell j))
  cover : ∀ x, (∃ i ∈ l, x ∈ cell i) ↔ x ∈ S

/-- The order of the pieces does not matter. -/
theorem Partitions.perm {cell : ι → Set X} {l l' : List ι} {S : Set X}
    (h : Partitions cell l S) (hp : l'.Perm l) : Partitions cell l' S where
  disjoint := (hp.pairwise_iff (fun hd => Disjoint.symm hd)).mpr h.disjoint
  cover x := by
    rw [← h.cover x]
    constructor
    · rintro ⟨i, hi, hx⟩
      exact ⟨i, hp.mem_iff.mp hi, hx⟩
    · rintro ⟨i, hi, hx⟩
      exact ⟨i, hp.mem_iff.mpr hi, hx⟩

/-- A piece lies inside what the list partitions. -/
theorem Partitions.subset {cell : ι → Set X} {l : List ι} {S : Set X}
    (h : Partitions cell l S) {i : ι} (hi : i ∈ l) : cell i ⊆ S :=
  fun x hx => (h.cover x).mp ⟨i, hi, hx⟩

/-- **CUT ONE SIDE, THEN THE REST.**  The second cut may depend on the piece of the first. -/
theorem Partitions.product {cell : ι → Set X} {l : List ι} {S : Set X}
    {cell' : κ → Set (List X)} {f : ι → List κ} {T : Set (List X)}
    {glue : ι → κ → μ} {box : μ → Set (List X)}
    (h : Partitions cell l S) (h' : ∀ i ∈ l, Partitions cell' (f i) T)
    (hbox : ∀ i k, box (glue i k) = Set.image2 List.cons (cell i) (cell' k)) :
    Partitions box (l.flatMap (fun i => (f i).map (glue i))) (Set.image2 List.cons S T) where
  disjoint := by
    rw [List.pairwise_flatMap]
    constructor
    · intro i hi
      rw [List.pairwise_map]
      refine (h' i hi).disjoint.imp ?_
      intro k m hkm
      rw [hbox, hbox, Set.disjoint_left]
      rintro _ ⟨x, hx, t, ht, rfl⟩ ⟨y, hy, u, hu, he⟩
      obtain ⟨rfl, rfl⟩ := List.cons.inj he
      exact Set.disjoint_left.mp hkm ht hu
    · refine h.disjoint.imp ?_
      intro i j hij b hb b' hb'
      obtain ⟨k, -, rfl⟩ := List.mem_map.mp hb
      obtain ⟨m, -, rfl⟩ := List.mem_map.mp hb'
      rw [hbox, hbox, Set.disjoint_left]
      rintro _ ⟨x, hx, t, ht, rfl⟩ ⟨y, hy, u, hu, he⟩
      obtain ⟨rfl, rfl⟩ := List.cons.inj he
      exact Set.disjoint_left.mp hij hx hy
  cover xs := by
    constructor
    · rintro ⟨b, hb, hxs⟩
      obtain ⟨i, hi, hb⟩ := List.mem_flatMap.mp hb
      obtain ⟨k, hk, rfl⟩ := List.mem_map.mp hb
      rw [hbox] at hxs
      obtain ⟨x, hx, t, ht, rfl⟩ := hxs
      exact ⟨x, h.subset hi hx, t, (h' i hi).subset hk ht, rfl⟩
    · rintro ⟨x, hx, t, ht, rfl⟩
      obtain ⟨i, hi, hx⟩ := (h.cover x).mpr hx
      obtain ⟨k, hk, ht⟩ := ((h' i hi).cover t).mpr ht
      refine ⟨glue i k, List.mem_flatMap.mpr ⟨i, hi, List.mem_map_of_mem hk⟩, ?_⟩
      rw [hbox]
      exact ⟨x, hx, t, ht, rfl⟩

/-! ## Intervals laid end to end -/

section Intervals

variable [LinearOrder α] {lo hi : ι → α} {a b : α} {l : List ι}

/-- The intervals `[lo i, hi i)` lie end to end from `a` to `b`. -/
def Tiles (lo hi : ι → α) : α → List ι → α → Prop
  | a, [], b => a = b
  | a, i :: l, b => lo i = a ∧ a ≤ hi i ∧ Tiles lo hi (hi i) l b

theorem Tiles.le : ∀ {a : α} {l : List ι}, Tiles lo hi a l b → a ≤ b
  | _, [], h => le_of_eq h
  | _, _ :: _, ⟨_, hle, ht⟩ => le_trans hle ht.le

theorem Tiles.bounds : ∀ {a : α} {l : List ι}, Tiles lo hi a l b →
    ∀ i ∈ l, a ≤ lo i ∧ lo i ≤ hi i ∧ hi i ≤ b := by
  intro a l h
  induction l generalizing a with
  | nil =>
      intro i hi'
      cases hi'
  | cons j l ih =>
      obtain ⟨rfl, hle, ht⟩ := h
      intro i hi'
      rcases List.mem_cons.mp hi' with rfl | hi'
      · exact ⟨le_refl _, hle, ht.le⟩
      · obtain ⟨h1, h2, h3⟩ := ih ht i hi'
        exact ⟨le_trans hle h1, h2, h3⟩

/-- An interval of a tiling ends before any later one starts. -/
theorem Tiles.ordered (h : Tiles lo hi a l b) : l.Pairwise (fun i j => hi i ≤ lo j) := by
  induction l generalizing a with
  | nil => exact List.Pairwise.nil
  | cons i l ih =>
      obtain ⟨rfl, hle, ht⟩ := h
      exact List.Pairwise.cons (fun j hj => (ht.bounds j hj).1) (ih ht)

/-- **INTERVALS LAID END TO END PARTITION** the interval they run through. -/
theorem Tiles.partitions (h : Tiles lo hi a l b) :
    Partitions (fun i => Set.Ico (lo i) (hi i)) l (Set.Ico a b) where
  disjoint := by
    refine h.ordered.imp ?_
    intro i j hij
    rw [Set.disjoint_left]
    intro x hx hy
    exact absurd (lt_of_lt_of_le hx.2 hij) (not_lt.mpr hy.1)
  cover x := by
    constructor
    · rintro ⟨i, hi', hx⟩
      obtain ⟨h1, -, h3⟩ := h.bounds i hi'
      exact ⟨le_trans h1 hx.1, lt_of_lt_of_le hx.2 h3⟩
    · intro hx
      induction l generalizing a with
      | nil =>
          obtain rfl : a = b := h
          exact absurd hx.2 (not_lt.mpr hx.1)
      | cons i l ih =>
          obtain ⟨rfl, hle, ht⟩ := h
          by_cases hlt : x < hi i
          · exact ⟨i, List.mem_cons_self, hx.1, hlt⟩
          · obtain ⟨j, hj, hxj⟩ := ih ht ⟨not_lt.mp hlt, hx.2⟩
            exact ⟨j, List.mem_cons_of_mem i hj, hxj⟩

/-! ## Boxes -/

/-- The points of a box, whose sides are half-open intervals. -/
def box : List (α × α) → Set (List α)
  | [] => {[]}
  | s :: sides => Set.image2 List.cons (Set.Ico s.1 s.2) (box sides)

end Intervals

end PbTiling
