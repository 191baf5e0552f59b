import PetaBricks.MatrixRegionModel

/-! # Box traversal — the coordinates of a box, each once

    The coordinates of a box are numbered with the first dimension the fastest, and each increment
    goes to the next number (`incFrom_next`).  A traversal from the lower corner is then the list
    of all numbers (`doWhile_box`).  A box without a coordinate has no lower corner: the traversal
    visits `c1` all the same. -/

namespace PbMatrixRegion

open PbMixedRadix PbRegionMatrix PbRemoteCache PbLocalRegion

/-- A coordinate of a box. -/
inductive InBox : List ℤ → List ℤ → List ℤ → Prop
  | nil : InBox [] [] []
  | cons {lo hi x : ℤ} {c1 c2 c : List ℤ} (hx : lo ≤ x ∧ x < hi) (h : InBox c1 c2 c) :
      InBox (lo :: c1) (hi :: c2) (x :: c)

/-- How many coordinates a box has. -/
def boxSize (c1 c2 : List ℤ) : ℤ := (List.zipWith (· - ·) c2 c1).prod

/-- The number of a coordinate. -/
def numberOf : List ℤ → List ℤ → List ℤ → ℤ
  | lo :: c1, hi :: c2, x :: c => (x - lo) + (hi - lo) * numberOf c1 c2 c
  | _, _, _ => 0

/-- The coordinate with a number. -/
def coordAt : List ℤ → List ℤ → ℤ → List ℤ
  | lo :: c1, hi :: c2, n => (lo + n.tmod (hi - lo)) :: coordAt c1 c2 (n.tdiv (hi - lo))
  | _, _, _ => []

section Box

variable {c1 c2 c : List ℤ}

theorem boxSize_cons (lo hi : ℤ) (c1 c2 : List ℤ) :
    boxSize (lo :: c1) (hi :: c2) = (hi - lo) * boxSize c1 c2 := by
  rw [boxSize, List.zipWith_cons_cons, List.prod_cons, boxSize]

theorem boxSize_zeros (size : List ℤ) :
    boxSize (List.replicate size.length 0) size = size.prod := by
  induction size with
  | nil => rfl
  | cons s size ih =>
      rw [List.length_cons, List.replicate_succ, boxSize_cons, ih, sub_zero, List.prod_cons]

/-- The numbering is that of the mixed radix. -/
theorem InBox.within (h : InBox c1 c2 c) :
    Within (List.zipWith (· - ·) c2 c1) (List.zipWith (· - ·) c c1) ∧
      numberOf c1 c2 c = encode (List.zipWith (· - ·) c2 c1) (List.zipWith (· - ·) c c1) := by
  induction h with
  | nil => exact ⟨.nil, rfl⟩
  | cons hx _ ih =>
      obtain ⟨hwithin, hnumber⟩ := ih
      refine ⟨.cons ⟨Int.sub_nonneg_of_le hx.1, Int.sub_lt_sub_right hx.2 _⟩ hwithin, ?_⟩
      rw [numberOf, hnumber]
      rfl

theorem InBox.bounds (h : InBox c1 c2 c) : 0 ≤ numberOf c1 c2 c ∧ numberOf c1 c2 c < boxSize c1 c2 := by
  rw [h.within.2]
  exact encode_bounds h.within.1

/-- The coordinate with the number of a coordinate is that one. -/
theorem coordAt_numberOf (h : InBox c1 c2 c) : coordAt c1 c2 (numberOf c1 c2 c) = c := by
  induction h with
  | nil => rfl
  | @cons lo hi x c1 c2 c hx hrest ih =>
      have hn := hrest.bounds.1
      have hpos : 0 < hi - lo := by omega
      have hmod : (x - lo + (hi - lo) * numberOf c1 c2 c).tmod (hi - lo) = x - lo := by
        rw [Int.tmod_eq_emod_of_nonneg (Int.add_nonneg (by omega) (mul_nonneg hpos.le hn)),
          Int.add_mul_emod_self_left, Int.emod_eq_of_lt (by omega) (by omega)]
      have hdiv : (x - lo + (hi - lo) * numberOf c1 c2 c).tdiv (hi - lo) = numberOf c1 c2 c := by
        rw [Int.tdiv_eq_ediv_of_nonneg (Int.add_nonneg (by omega) (mul_nonneg hpos.le hn)),
          Int.add_mul_ediv_left _ _ hpos.ne', Int.ediv_eq_zero_of_lt (by omega) (by omega),
          Int.zero_add]
      rw [numberOf, coordAt, hmod, hdiv, ih]
      exact congrArg (· :: c) (by omega)

/-- A box with coordinates: each dimension has some. -/
def Proper (c1 c2 : List ℤ) : Prop := List.Forall₂ (fun lo hi => lo < hi) c1 c2

theorem Proper.boxSize_pos (h : Proper c1 c2) : 0 < boxSize c1 c2 := by
  induction h with
  | nil => exact Int.one_pos
  | cons hlt _ ih =>
      rw [boxSize_cons]
      exact mul_pos (by omega) ih

/-- Every number below the size is that of a coordinate. -/
theorem coordAt_inBox (h : Proper c1 c2) {n : ℤ} (h0 : 0 ≤ n) (hn : n < boxSize c1 c2) :
    InBox c1 c2 (coordAt c1 c2 n) ∧ numberOf c1 c2 (coordAt c1 c2 n) = n := by
  induction h generalizing n with
  | nil =>
      have hone : boxSize [] [] = 1 := rfl
      exact ⟨.nil, show (0 : ℤ) = n by omega⟩
  | @cons lo hi c1 c2 hlt _ ih =>
      rw [boxSize_cons] at hn
      obtain ⟨⟨hmod0, hmod⟩, hdiv0, hdiv⟩ := digit_bounds (by omega : 0 ≤ hi - lo) h0 hn
      obtain ⟨hin, hnumber⟩ := ih hdiv0 hdiv
      refine ⟨.cons ⟨by omega, by omega⟩ hin, ?_⟩
      rw [coordAt, numberOf, hnumber]
      have hsum := Int.tmod_add_mul_tdiv n (hi - lo)
      omega

theorem Proper.inBox (h : Proper c1 c2) : InBox c1 c2 c1 ∧ numberOf c1 c2 c1 = 0 := by
  induction h with
  | nil => exact ⟨.nil, rfl⟩
  | cons hlt _ ih =>
      refine ⟨.cons ⟨le_rfl, hlt⟩ ih.1, ?_⟩
      rw [numberOf, ih.2, mul_zero, sub_self, add_zero]

theorem InBox.proper (h : InBox c1 c2 c) : Proper c1 c2 := by
  induction h with
  | nil => exact .nil
  | cons hx _ ih => exact .cons (by omega) ih

/-! ## Increments -/

theorem incFrom_cons (i lo hi x x₂ : ℤ) (c1 c2 c : List ℤ) :
    incFrom i (lo :: c1) (hi :: c2) (x :: x₂ :: c) =
      if x + 1 ≥ hi then
        (lo :: (incFrom (i + 1) c1 c2 (x₂ :: c)).1, (incFrom (i + 1) c1 c2 (x₂ :: c)).2)
      else ((x + 1) :: x₂ :: c, i) := by
  cases c1 <;> cases c2 <;> rfl

/-- An increment goes to the next number, or reports the end. -/
theorem incFrom_next (h : InBox c1 c2 c) {i : ℤ} (hi : 0 ≤ i) :
    (numberOf c1 c2 c + 1 < boxSize c1 c2 →
      0 ≤ (incFrom i c1 c2 c).2 ∧ InBox c1 c2 (incFrom i c1 c2 c).1 ∧
        numberOf c1 c2 (incFrom i c1 c2 c).1 = numberOf c1 c2 c + 1) ∧
      (numberOf c1 c2 c + 1 = boxSize c1 c2 → (incFrom i c1 c2 c).2 = -1) := by
  induction h generalizing i with
  | nil => exact ⟨fun hlt => absurd hlt (by decide), fun _ => rfl⟩
  | @cons lo hi' x c1 c2 c hx hrest ih =>
      have hn := hrest.bounds
      rw [boxSize_cons, numberOf]
      generalize hside : hi' - lo = side at *
      cases hrest with
      | nil =>
          -- the last dimension
          have hstep : incFrom i [lo] [hi'] [x] =
              if x + 1 ≥ hi' then ([x + 1], -1) else ([x + 1], i) := rfl
          have hone : boxSize [] [] = 1 := rfl
          have hzero : numberOf [] [] [] = 0 := rfl
          rw [hone, hzero, mul_one, mul_zero, add_zero, hstep]
          refine ⟨fun hlt => ?_, fun heq => ?_⟩
          · rw [if_neg (by omega)]
            refine ⟨hi, .cons ⟨by omega, by omega⟩ .nil, ?_⟩
            rw [numberOf, hzero, mul_zero]
            omega
          · rw [if_pos (by omega)]
      | @cons lo₂ hi₂ x₂ c1 c2 c hx₂ hrest₂ =>
          have hrest := InBox.cons hx₂ hrest₂
          obtain ⟨hnext, hend⟩ := ih (by omega : 0 ≤ i + 1)
          rw [incFrom_cons]
          generalize incFrom (i + 1) (lo₂ :: c1) (hi₂ :: c2) (x₂ :: c) = rest at *
          generalize hrestNumber : numberOf (lo₂ :: c1) (hi₂ :: c2) (x₂ :: c) = k at *
          generalize boxSize (lo₂ :: c1) (hi₂ :: c2) = total at *
          by_cases hcarry : x + 1 ≥ hi'
          · -- the dimension comes round, and the rest is incremented
            have hx' : x - lo = side - 1 := by omega
            rw [if_pos hcarry, hx']
            refine ⟨fun hlt => ?_, fun heq => ?_⟩
            · have hk : k + 1 < total := by
                have : side * (k + 1) < side * total := by nlinarith
                exact lt_of_mul_lt_mul_left this (by omega)
              obtain ⟨hret, hin, hnumber⟩ := hnext hk
              refine ⟨hret, .cons ⟨le_rfl, by omega⟩ hin, ?_⟩
              rw [numberOf, hnumber, hside]
              ring
            · refine hend ?_
              have : side * (k + 1) = side * total := by nlinarith
              exact mul_left_cancel₀ (by omega : side ≠ 0) this
          · rw [if_neg hcarry]
            refine ⟨fun _ => ⟨hi, .cons ⟨by omega, by omega⟩ hrest, ?_⟩, fun heq => ?_⟩
            · rw [numberOf, hrestNumber, hside]
              ring
            · have hle : side * (k + 1) ≤ side * total := by nlinarith
              nlinarith

/-- The traversal from a coordinate on. -/
theorem doWhile_from (h : InBox c1 c2 c) (k : ℕ) (hk : numberOf c1 c2 c + k + 1 = boxSize c1 c2)
    {n : ℕ} (hn : k < n) :
    doWhile (incCoordWithBound c1 c2) n c =
      some ((List.range (k + 1)).map fun j : ℕ => coordAt c1 c2 (numberOf c1 c2 c + j)) := by
  induction k generalizing c n with
  | zero =>
      obtain ⟨n, rfl⟩ := Nat.exists_eq_add_of_le' hn
      have hend := (incFrom_next h le_rfl).2 (by simpa using hk)
      rw [doWhile, incCoordWithBound, hend, if_neg (by decide)]
      simp [coordAt_numberOf h]
  | succ k ih =>
      obtain ⟨n, rfl⟩ := Nat.exists_eq_add_of_le' (Nat.lt_of_lt_of_le (Nat.succ_pos _) hn)
      obtain ⟨hret, hin, hnumber⟩ := (incFrom_next h le_rfl).1 (by push_cast at hk; omega)
      have hrest := ih hin (by rw [hnumber]; push_cast at hk; omega) (by omega : k < n)
      rw [doWhile, show incCoordWithBound c1 c2 c = incFrom 0 c1 c2 c from rfl, if_pos hret, hrest,
        hnumber, @List.range_succ_eq_map (k + 1), List.map_cons, List.map_map]
      refine congrArg some (congrArg₂ List.cons ?_ ?_)
      · rw [Nat.cast_zero, add_zero, coordAt_numberOf h]
      · refine List.map_congr_left fun j _ => ?_
        show _ = coordAt c1 c2 (numberOf c1 c2 c + (j + 1 : ℕ))
        rw [Nat.cast_add, Nat.cast_one, add_assoc, add_comm (1 : ℤ)]

/-- All coordinates of a box, in order. -/
def boxList (c1 c2 : List ℤ) : List (List ℤ) :=
  (List.range (boxSize c1 c2).toNat).map fun j : ℕ => coordAt c1 c2 j

/-- **THE TRAVERSAL** of a box with coordinates. -/
theorem doWhile_box (h : Proper c1 c2) :
    ∃ n, doWhile (incCoordWithBound c1 c2) n c1 = some (boxList c1 c2) := by
  have hpos := h.boxSize_pos
  obtain ⟨hin, hzero⟩ := h.inBox
  obtain ⟨k, hk⟩ : ∃ k : ℕ, (boxSize c1 c2).toNat = k + 1 :=
    Nat.exists_eq_succ_of_ne_zero (by omega)
  refine ⟨k + 1, ?_⟩
  rw [doWhile_from hin k (by omega) (Nat.lt_succ_self k), boxList, hk, hzero]
  refine congrArg some (List.map_congr_left fun j _ => ?_)
  rw [zero_add]

theorem length_boxList (h : Proper c1 c2) : ((boxList c1 c2).length : ℤ) = boxSize c1 c2 := by
  rw [boxList, List.length_map, List.length_range, Int.toNat_of_nonneg h.boxSize_pos.le]

theorem mem_boxList (h : Proper c1 c2) : c ∈ boxList c1 c2 ↔ InBox c1 c2 c := by
  rw [boxList, List.mem_map]
  constructor
  · rintro ⟨j, hj, rfl⟩
    rw [List.mem_range] at hj
    exact (coordAt_inBox h (Int.natCast_nonneg j) (by omega)).1
  · intro hc
    obtain ⟨h0, hlt⟩ := hc.bounds
    refine ⟨(numberOf c1 c2 c).toNat, List.mem_range.mpr (by omega), ?_⟩
    rw [Int.toNat_of_nonneg h0, coordAt_numberOf hc]

theorem nodup_boxList (h : Proper c1 c2) : (boxList c1 c2).Nodup := by
  refine List.Nodup.map_on (fun i hi j hj heq => ?_) List.nodup_range
  rw [List.mem_range] at hi hj
  have hi' := (coordAt_inBox h (Int.natCast_nonneg i) (by omega)).2
  have hj' := (coordAt_inBox h (Int.natCast_nonneg j) (by omega)).2
  rw [heq, hj'] at hi'
  exact (Int.ofNat.inj hi').symm

/-- A traversal does not depend on the bound on its turns. -/
theorem doWhile_unique {inc : List ℤ → List ℤ × ℤ} {n k : ℕ} {cs cs' : List (List ℤ)}
    (h : doWhile inc n c = some cs) (h' : doWhile inc k c = some cs') : cs = cs' := by
  induction n generalizing c k cs cs' with
  | zero => cases h
  | succ n ih =>
      cases k with
      | zero => cases h'
      | succ k =>
          rw [doWhile] at h h'
          split at h
          · rename_i hret
            rw [if_pos hret] at h'
            obtain ⟨rest, hrest, rfl⟩ := Option.map_eq_some_iff.mp h
            obtain ⟨rest', hrest', rfl⟩ := Option.map_eq_some_iff.mp h'
            rw [ih hrest hrest']
          · rename_i hret
            rw [if_neg hret] at h'
            exact Option.some.inj (h.symm.trans h')

/-- A traversal visits where it starts. -/
theorem start_mem_doWhile {inc : List ℤ → List ℤ × ℤ} {n : ℕ} {cs : List (List ℤ)}
    (h : doWhile inc n c = some cs) : c ∈ cs := by
  cases n with
  | zero => cases h
  | succ n =>
      rw [doWhile] at h
      split at h
      · obtain ⟨rest, _, rfl⟩ := Option.map_eq_some_iff.mp h
        exact List.mem_cons_self
      · obtain rfl := Option.some.inj h
        exact List.mem_cons_self

end Box

end PbMatrixRegion
