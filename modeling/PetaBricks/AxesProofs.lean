import Mathlib.Data.List.Basic
import Mathlib.Data.List.InsertIdx

/-! # Axes — a view of an array, axis by axis

    A view of a multidimensional array says for each axis of the array either the
    one position that is looked at, or that the axis is one of the view's own,
    with an offset and a size.  Restricting a view to a box adds to the offsets
    (`cell_restrict`), fixing one of its axes inserts a coordinate (`cell_fix`).

    `fixed` lists the fixed axes with their places in the array, which is how a
    program would store them; `fixed_fix` says where a new one goes. -/

namespace PbAxes

/-- One axis of the array. -/
inductive Axis where
  | fixed (position : Int)
  | free (offset size : Int)
  deriving DecidableEq, Repr

/-- The sizes of the view's own axes. -/
def sizes : List Axis → List Int
  | [] => []
  | .fixed _ :: as => sizes as
  | .free _ s :: as => s :: sizes as

/-- The offsets of the view's own axes. -/
def offsets : List Axis → List Int
  | [] => []
  | .fixed _ :: as => offsets as
  | .free o _ :: as => o :: offsets as

/-- The fixed axes with their places, counted from `b`. -/
def fixed : Nat → List Axis → List (Nat × Int)
  | _, [] => []
  | b, .fixed p :: as => (b, p) :: fixed (b + 1) as
  | b, .free _ _ :: as => fixed (b + 1) as

/-- The cell of the array that a coordinate of the view designates. -/
def cell : List Axis → List Int → List Int
  | [], _ => []
  | .fixed p :: as, x => p :: cell as x
  | .free o _ :: as, [] => o :: cell as []
  | .free o _ :: as, x :: xs => (x + o) :: cell as xs

/-- The box with origin `os` and sizes `ss` in the view. -/
def restrict : List Axis → List Int → List Int → List Axis
  | [], _, _ => []
  | .fixed p :: as, os, ss => .fixed p :: restrict as os ss
  | .free o _ :: as, d :: os, s :: ss => .free (o + d) s :: restrict as os ss
  | .free o s :: as, _, _ => .free o s :: as

/-- The view with its `k`-th own axis fixed at position `q` of the array. -/
def fix : List Axis → Nat → Int → List Axis
  | [], _, _ => []
  | .fixed p :: as, k, q => .fixed p :: fix as k q
  | .free _ _ :: as, 0, q => .fixed q :: as
  | .free o s :: as, k + 1, q => .free o s :: fix as k q

/-- Which axis of the array the view's `k`-th own axis is. -/
def place : List Axis → Nat → Nat
  | [], k => k
  | .fixed _ :: as, k => place as k + 1
  | .free _ _ :: _, 0 => 0
  | .free _ _ :: as, k + 1 => place as k + 1

/-- The view with its fixed positions forgotten. -/
def shape : List Axis → List Axis
  | [] => []
  | .fixed _ :: as => .fixed 0 :: shape as
  | .free o s :: as => .free o s :: shape as

/-! ## Lengths -/

theorem length_offsets (as : List Axis) :
    (offsets as).length = (sizes as).length := by
  induction as with
  | nil => rfl
  | cons a as ih => cases a <;> simp [offsets, sizes, ih]

theorem length_sizes_add_fixed (as : List Axis) (b : Nat) :
    (sizes as).length + (fixed b as).length = as.length := by
  induction as generalizing b with
  | nil => rfl
  | cons a as ih =>
      have hrest := ih (b + 1)
      cases a with
      | fixed p => simp only [sizes, fixed, List.length_cons]; omega
      | free o s => simp only [sizes, fixed, List.length_cons]; omega

theorem length_restrict (as : List Axis) (os ss : List Int) :
    (restrict as os ss).length = as.length := by
  induction as generalizing os ss with
  | nil => rfl
  | cons a as ih =>
      cases a with
      | fixed p => simp [restrict, ih]
      | free o s =>
          cases os with
          | nil => rfl
          | cons d os => cases ss with
            | nil => rfl
            | cons s' ss => simp [restrict, ih]

theorem length_fix (as : List Axis) (k : Nat) (q : Int) :
    (fix as k q).length = as.length := by
  induction as generalizing k with
  | nil => rfl
  | cons a as ih =>
      cases a with
      | fixed p => simp [fix, ih]
      | free o s => cases k <;> simp [fix, ih]

/-! ## Boxes -/

section Restrict

variable {as : List Axis} {os ss : List Int}

theorem sizes_restrict (ho : os.length = (sizes as).length)
    (hs : ss.length = (sizes as).length) : sizes (restrict as os ss) = ss := by
  induction as generalizing os ss with
  | nil =>
      rw [show ss = [] from List.length_eq_zero_iff.mp hs]
      rfl
  | cons a as ih =>
      cases a with
      | fixed p => exact ih ho hs
      | free o s =>
          cases os with
          | nil => exact nomatch ho
          | cons d os => cases ss with
            | nil => exact nomatch hs
            | cons s' ss =>
                rw [restrict, sizes, ih (Nat.succ.inj ho) (Nat.succ.inj hs)]

theorem offsets_restrict (ho : os.length = (sizes as).length)
    (hs : ss.length = (sizes as).length) :
    offsets (restrict as os ss) = List.zipWith (· + ·) (offsets as) os := by
  induction as generalizing os ss with
  | nil => rfl
  | cons a as ih =>
      cases a with
      | fixed p => exact ih ho hs
      | free o s =>
          cases os with
          | nil => exact nomatch ho
          | cons d os => cases ss with
            | nil => exact nomatch hs
            | cons s' ss =>
                rw [restrict, offsets, ih (Nat.succ.inj ho) (Nat.succ.inj hs)]
                rfl

/-- A box fixes what the view fixes. -/
theorem fixed_restrict (as : List Axis) (os ss : List Int) (b : Nat) :
    fixed b (restrict as os ss) = fixed b as := by
  induction as generalizing os ss b with
  | nil => rfl
  | cons a as ih =>
      cases a with
      | fixed p => rw [restrict, fixed, fixed, ih]
      | free o s =>
          cases os with
          | nil => rfl
          | cons d os => cases ss with
            | nil => rfl
            | cons s' ss => rw [restrict, fixed, fixed, ih]

theorem shape_restrict (as : List Axis) (os ss : List Int) :
    shape (restrict as os ss) = restrict (shape as) os ss := by
  induction as generalizing os ss with
  | nil => rfl
  | cons a as ih =>
      cases a with
      | fixed p => rw [restrict, shape, ih]; rfl
      | free o s =>
          cases os with
          | nil => rfl
          | cons d os => cases ss with
            | nil => rfl
            | cons s' ss => rw [restrict, shape, ih]; rfl

/-- **BOX**: in a box the coordinates are shifted by its origin. -/
theorem cell_restrict {x : List Int} (hx : x.length = (sizes as).length)
    (ho : os.length = (sizes as).length) (hs : ss.length = (sizes as).length) :
    cell (restrict as os ss) x = cell as (List.zipWith (· + ·) x os) := by
  induction as generalizing x os ss with
  | nil => rfl
  | cons a as ih =>
      cases a with
      | fixed p => rw [restrict, cell, cell, ih hx ho hs]
      | free o s =>
          cases os with
          | nil => exact nomatch ho
          | cons d os => cases ss with
            | nil => exact nomatch hs
            | cons s' ss => cases x with
              | nil => exact nomatch hx
              | cons y x =>
                  rw [restrict, List.zipWith_cons_cons, cell, cell,
                    ih (Nat.succ.inj hx) (Nat.succ.inj ho) (Nat.succ.inj hs),
                    Int.add_comm o d, Int.add_assoc]

end Restrict

/-! ## Fixing an axis -/

section Fix

variable {as : List Axis} {k : Nat}

theorem sizes_fix (as : List Axis) (k : Nat) (q : Int) :
    sizes (fix as k q) = (sizes as).eraseIdx k := by
  induction as generalizing k with
  | nil => rfl
  | cons a as ih =>
      cases a with
      | fixed p => exact ih k
      | free o s =>
          cases k with
          | zero => rfl
          | succ k => rw [fix, sizes, ih]; rfl

theorem offsets_fix (as : List Axis) (k : Nat) (q : Int) :
    offsets (fix as k q) = (offsets as).eraseIdx k := by
  induction as generalizing k with
  | nil => rfl
  | cons a as ih =>
      cases a with
      | fixed p => exact ih k
      | free o s =>
          cases k with
          | zero => rfl
          | succ k => rw [fix, offsets, ih]; rfl

theorem shape_fix (as : List Axis) (k : Nat) (q : Int) :
    shape (fix as k q) = fix (shape as) k 0 := by
  induction as generalizing k with
  | nil => rfl
  | cons a as ih =>
      cases a with
      | fixed p => rw [fix, shape, ih]; rfl
      | free o s =>
          cases k with
          | zero => rfl
          | succ k => rw [fix, shape, ih]; rfl

/-- **FIX**: with an axis fixed `p` from its offset, that coordinate is `p`. -/
theorem cell_fix {x : List Int} {o : Int} (p : Int)
    (hx : x.length + 1 = (sizes as).length) (hk : (offsets as)[k]? = some o) :
    cell (fix as k (p + o)) x = cell as (x.insertIdx k p) := by
  induction as generalizing k x with
  | nil => exact nomatch hk
  | cons a as ih =>
      cases a with
      | fixed q => rw [fix, cell, cell, ih hx hk]
      | free o' s =>
          cases k with
          | zero =>
              have ho : o' = o := by simpa [offsets] using hk
              subst ho
              rfl
          | succ k =>
              cases x with
              | nil =>
                  -- there is only one own axis, so the `k+1`-st does not exist
                  have hlen := length_offsets as
                  have hz : (sizes as).length = 0 :=
                    (Nat.succ.inj hx).symm
                  have hlt : k < (offsets as).length :=
                    Nat.lt_of_succ_lt_succ (List.getElem?_eq_some_iff.mp hk).1
                  omega
              | cons y x =>
                  rw [fix, List.insertIdx_succ_cons, cell, cell,
                    ih (Nat.succ.inj hx) hk]

/-- Fixing axes tells views apart exactly if their fixed positions or the new
    positions differ. -/
theorem fixed_fix_inj {as as' : List Axis} (h : shape as = shape as')
    (hk : k < (sizes as).length) (q q' : Int) (b : Nat) :
    fixed b (fix as k q) = fixed b (fix as' k q') ↔
      fixed b as = fixed b as' ∧ q = q' := by
  induction as generalizing as' k b with
  | nil => exact absurd hk (Nat.not_lt_zero k)
  | cons a as ih =>
      cases as' with
      | nil => cases a <;> exact nomatch h
      | cons a' as' =>
          cases a with
          | fixed p =>
              cases a' with
              | free o' s' => exact nomatch h
              | fixed p' =>
                  have hs : shape as = shape as' := (List.cons.inj h).2
                  have hrest := ih hs (k := k) hk (b + 1)
                  simp only [fix, fixed, List.cons.injEq, Prod.mk.injEq,
                    true_and, hrest, and_assoc]
          | free o s =>
              cases a' with
              | fixed p' => exact nomatch h
              | free o' s' =>
                  have hs : shape as = shape as' := (List.cons.inj h).2
                  cases k with
                  | zero =>
                      simp only [fix, fixed, List.cons.injEq, Prod.mk.injEq,
                        true_and]
                      exact and_comm
                  | succ k =>
                      exact ih hs (k := k) (Nat.lt_of_succ_lt_succ hk) (b + 1)

end Fix

/-! ## Places -/

theorem le_of_mem_fixed {as : List Axis} {b : Nat} {e : Nat × Int}
    (h : e ∈ fixed b as) : b ≤ e.1 := by
  induction as generalizing b with
  | nil => exact nomatch h
  | cons a as ih =>
      cases a with
      | fixed p =>
          rcases List.mem_cons.mp h with rfl | hin
          · exact Nat.le_refl _
          · exact Nat.le_of_succ_le (ih hin)
      | free o s => exact Nat.le_of_succ_le (ih h)

/-- Without fixed axes the view's axes are the array's. -/
theorem place_of_fixed_nil {as : List Axis} {b : Nat} (h : fixed b as = [])
    (k : Nat) : place as k = k := by
  induction as generalizing b k with
  | nil => rfl
  | cons a as ih =>
      cases a with
      | fixed p => exact nomatch h
      | free o s =>
          cases k with
          | zero => rfl
          | succ k => rw [place, ih h]

/-- The first fixed axis stands where it was put. -/
theorem fixed_fix_of_nil {as : List Axis} {b k : Nat} (h : fixed b as = [])
    (hk : k < (sizes as).length) (q : Int) :
    fixed b (fix as k q) = [(b + k, q)] := by
  induction as generalizing b k with
  | nil => exact absurd hk (Nat.not_lt_zero k)
  | cons a as ih =>
      cases a with
      | fixed p => exact nomatch h
      | free o s =>
          cases k with
          | zero =>
              rw [fix, fixed, show fixed (b + 1) as = [] from h]
              rfl
          | succ k =>
              rw [fix, fixed, ih h (Nat.lt_of_succ_lt_succ hk),
                show b + 1 + k = b + (k + 1) by omega]

/-! ## Shapes -/

section Shape

variable {as as' : List Axis}

theorem sizes_shape (as : List Axis) : sizes (shape as) = sizes as := by
  induction as with
  | nil => rfl
  | cons a as ih => cases a <;> simp [shape, sizes, ih]

theorem offsets_shape (as : List Axis) : offsets (shape as) = offsets as := by
  induction as with
  | nil => rfl
  | cons a as ih => cases a <;> simp [shape, offsets, ih]

theorem place_shape (as : List Axis) (k : Nat) :
    place (shape as) k = place as k := by
  induction as generalizing k with
  | nil => rfl
  | cons a as ih =>
      cases a with
      | fixed p => rw [shape, place, place, ih]
      | free o s => cases k <;> simp [shape, place, ih]

theorem length_shape (as : List Axis) : (shape as).length = as.length := by
  induction as with
  | nil => rfl
  | cons a as ih => cases a <;> simp [shape, ih]

theorem fixed_shape (as : List Axis) (b : Nat) :
    (fixed b (shape as)).map Prod.fst = (fixed b as).map Prod.fst := by
  induction as generalizing b with
  | nil => rfl
  | cons a as ih => cases a <;> simp [shape, fixed, ih]

/-- Two views of one shape designate the same cell exactly if they fix the same
    positions. -/
theorem cell_eq_iff (h : shape as = shape as') (x : List Int) (b : Nat) :
    cell as x = cell as' x ↔ fixed b as = fixed b as' := by
  induction as generalizing as' x b with
  | nil =>
      cases as' with
      | nil => exact ⟨fun _ => rfl, fun _ => rfl⟩
      | cons a' as' => cases a' <;> exact nomatch h
  | cons a as ih =>
      cases as' with
      | nil => cases a <;> exact nomatch h
      | cons a' as' =>
          cases a with
          | fixed p =>
              cases a' with
              | free o' s' => exact nomatch h
              | fixed p' =>
                  have hrest := ih (List.cons.inj h).2 x (b + 1)
                  simp only [cell, fixed, List.cons.injEq, Prod.mk.injEq,
                    true_and, hrest]
          | free o s =>
              cases a' with
              | fixed p' => exact nomatch h
              | free o' s' =>
                  obtain ⟨hhead, htail⟩ := List.cons.inj h
                  obtain ⟨rfl, -⟩ := Axis.free.inj hhead
                  cases x with
                  | nil =>
                      simp only [cell, fixed, List.cons.injEq, true_and]
                      exact ih htail [] (b + 1)
                  | cons y x =>
                      simp only [cell, fixed, List.cons.injEq, true_and]
                      exact ih htail x (b + 1)

end Shape

/-! ## Inserting by place -/

/-- Where a walk along the fixed axes that starts at `d` inserts a new one: it
    moves on past each place that is not beyond it, and finds no end. -/
def insertBefore (value : Nat → Option Int) :
    List (Nat × Int) → Nat → Option (List (Nat × Int))
  | [], _ => none
  | (e, p) :: rest, d =>
      if e ≤ d then (insertBefore value rest (d + 1)).map ((e, p) :: ·)
      else (value d).map fun q => (d, q) :: (e, p) :: rest

/-- Some fixed axis stands behind the view's `k`-th own one. -/
def Behind (b : Nat) (as : List Axis) (k : Nat) : Prop :=
  ∃ e ∈ fixed b as, b + place as k < e.1

theorem behind_fixed {b k : Nat} {p : Int} {as : List Axis} :
    Behind b (.fixed p :: as) k ↔ Behind (b + 1) as k := by
  constructor
  · rintro ⟨e, he, hlt⟩
    rw [place] at hlt
    rcases List.mem_cons.mp he with rfl | hin
    · simp only at hlt; omega
    · exact ⟨e, hin, by omega⟩
  · rintro ⟨e, he, hlt⟩
    exact ⟨e, List.mem_cons_of_mem _ he, by rw [place]; omega⟩

theorem behind_free_succ {b k : Nat} {o s : Int} {as : List Axis} :
    Behind b (.free o s :: as) (k + 1) ↔ Behind (b + 1) as k := by
  constructor
  · rintro ⟨e, he, hlt⟩
    rw [place] at hlt
    exact ⟨e, he, by omega⟩
  · rintro ⟨e, he, hlt⟩
    exact ⟨e, he, by rw [place]; omega⟩

theorem behind_free_zero {b : Nat} {o s : Int} {as : List Axis} :
    Behind b (.free o s :: as) 0 ↔ fixed (b + 1) as ≠ [] := by
  constructor
  · rintro ⟨e, he, -⟩ hnil
    rw [fixed, hnil] at he
    exact nomatch he
  · intro hne
    obtain ⟨e, he⟩ := List.exists_mem_of_ne_nil _ hne
    exact ⟨e, he, Nat.lt_of_succ_le (le_of_mem_fixed he)⟩

/-- **INSERTION**: the walk finds the place of the `k`-th own axis, provided some
    fixed axis stands behind it. -/
theorem insertBefore_fixed (value : Nat → Option Int) {as : List Axis} (b : Nat)
    {k : Nat} (hk : k < (sizes as).length) :
    (Behind b as k → insertBefore value (fixed b as) (b + k)
      = (value (b + place as k)).map fun q => fixed b (fix as k q)) ∧
    (¬Behind b as k → insertBefore value (fixed b as) (b + k) = none) := by
  induction as generalizing b k with
  | nil => exact absurd hk (Nat.not_lt_zero k)
  | cons a as ih =>
      cases a with
      | fixed p =>
          obtain ⟨hyes, hno⟩ := ih (b := b + 1) hk
          rw [show b + 1 + k = b + k + 1 by omega] at hyes hno
          rw [behind_fixed, fixed, insertBefore, if_pos (Nat.le_add_right b k),
            show b + place (.fixed p :: as) k = b + 1 + place as k by
              rw [place]; omega]
          constructor
          · intro h
            rw [hyes h, Option.map_map]
            rfl
          · intro h
            rw [hno h]
            rfl
      | free o s =>
          cases k with
          | succ k =>
              have hrest := ih (b := b + 1) (Nat.lt_of_succ_lt_succ hk)
              rw [show b + 1 + k = b + (k + 1) by omega] at hrest
              rw [behind_free_succ, fixed,
                show b + place (.free o s :: as) (k + 1)
                  = b + 1 + place as k by rw [place]; omega]
              exact hrest
          | zero =>
              rw [behind_free_zero, fixed]
              cases hf : fixed (b + 1) as with
              | nil => exact ⟨fun h => absurd rfl h, fun _ => rfl⟩
              | cons e rest =>
                  have hlt : b < e.1 := by
                    have he : e ∈ fixed (b + 1) as := by
                      rw [hf]; exact List.mem_cons_self
                    exact le_of_mem_fixed he
                  refine ⟨fun _ => ?_, fun h => absurd (List.cons_ne_nil _ _) h⟩
                  rw [insertBefore, if_neg (by omega)]
                  simp only [place, fix, fixed, hf, Nat.add_zero]

end PbAxes
