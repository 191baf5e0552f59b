import Mathlib.Algebra.Order.Ring.Int
import Mathlib.Algebra.BigOperators.Group.List.Basic
import Mathlib.Tactic.Linarith

/-! # Mixed radix — tuples as numbers

    A tuple whose entries stay below their bases is a number below the product of
    the bases: `encode` is its value with the first entry as the lowest digit, and
    `digits` takes it apart again by remainders and quotients.  The division is
    the truncating one. -/

namespace PbMixedRadix

/-- The number with these digits. -/
def encode : List Int → List Int → Int
  | [], _ => 0
  | _ :: _, [] => 0
  | b :: bs, d :: ds => d + b * encode bs ds

/-- The digits of a number. -/
def digits : List Int → Int → List Int
  | [], _ => []
  | b :: bs, n => n.tmod b :: digits bs (n.tdiv b)

/-- Every digit is below its base. -/
def Within (bs ds : List Int) : Prop := List.Forall₂ (fun b d => 0 ≤ d ∧ d < b) bs ds

variable {bs ds : List Int}

theorem encode_bounds (h : Within bs ds) : 0 ≤ encode bs ds ∧ encode bs ds < bs.prod := by
  induction h with
  | nil => simp [encode]
  | @cons b d bs ds hd _ ih =>
      obtain ⟨hd0, hdb⟩ := hd
      obtain ⟨hlo, hhi⟩ := ih
      rw [encode, List.prod_cons]
      have hmul : 0 ≤ b * encode bs ds := mul_nonneg (by omega) hlo
      have hstep : b * (encode bs ds + 1) ≤ b * bs.prod :=
        Int.mul_le_mul_of_nonneg_left (by omega) (by omega)
      rw [Int.mul_add, Int.mul_one] at hstep
      constructor <;> omega

theorem digits_encode (h : Within bs ds) : digits bs (encode bs ds) = ds := by
  induction h with
  | nil => rfl
  | @cons b d bs ds hd hrest ih =>
      obtain ⟨hd0, hdb⟩ := hd
      have hlo := (encode_bounds hrest).1
      have hsum : 0 ≤ d + b * encode bs ds :=
        Int.add_nonneg hd0 (mul_nonneg (by omega) hlo)
      have hmod : (d + b * encode bs ds).tmod b = d := by
        rw [Int.tmod_eq_emod_of_nonneg hsum, Int.add_mul_emod_self_left,
          Int.emod_eq_of_lt hd0 hdb]
      have hdiv : (d + b * encode bs ds).tdiv b = encode bs ds := by
        rw [Int.tdiv_eq_ediv_of_nonneg hsum, Int.add_mul_ediv_left _ _ (by omega : b ≠ 0),
          Int.ediv_eq_zero_of_lt hd0 hdb, Int.zero_add]
      rw [encode, digits, hmod, hdiv, ih]

/-- The lowest digit and the number of the others. -/
theorem digit_bounds {b p n : Int} (hb : 0 ≤ b) (h0 : 0 ≤ n) (h : n < b * p) :
    (0 ≤ n.tmod b ∧ n.tmod b < b) ∧ 0 ≤ n.tdiv b ∧ n.tdiv b < p := by
  have hbpos : 0 < b := by
    rcases Int.le_iff_lt_or_eq.mp hb with hlt | heq
    · exact hlt
    · rw [← heq, Int.zero_mul] at h
      omega
  refine ⟨⟨Int.tmod_nonneg _ h0, Int.tmod_lt_of_pos _ hbpos⟩, Int.tdiv_nonneg h0 hb, ?_⟩
  rw [Int.tdiv_eq_ediv_of_nonneg h0]
  exact Int.ediv_lt_of_lt_mul hbpos (by rwa [Int.mul_comm] at h)

theorem digits_within (hbs : ∀ b ∈ bs, 0 ≤ b) {n : Int} (h0 : 0 ≤ n) (h : n < bs.prod) :
    Within bs (digits bs n) := by
  induction bs generalizing n with
  | nil => exact .nil
  | cons b bs ih =>
      have hrest : ∀ c ∈ bs, 0 ≤ c := fun c hc => hbs c (List.mem_cons_of_mem _ hc)
      rw [List.prod_cons] at h
      obtain ⟨hmod, hdiv0, hdiv⟩ :=
        digit_bounds (hbs b List.mem_cons_self) h0 h
      exact .cons hmod (ih hrest hdiv0 hdiv)

/-- **EVERY NUMBER BELOW THE PRODUCT HAS DIGITS.** -/
theorem encode_digits (hbs : ∀ b ∈ bs, 0 ≤ b) {n : Int} (h0 : 0 ≤ n) (h : n < bs.prod) :
    encode bs (digits bs n) = n := by
  induction bs generalizing n with
  | nil =>
      rw [List.prod_nil] at h
      show 0 = n
      omega
  | cons b bs ih =>
      have hrest : ∀ c ∈ bs, 0 ≤ c := fun c hc => hbs c (List.mem_cons_of_mem _ hc)
      rw [List.prod_cons] at h
      obtain ⟨_, hdiv0, hdiv⟩ :=
        digit_bounds (hbs b List.mem_cons_self) h0 h
      rw [digits, encode, ih hrest hdiv0 hdiv]
      exact Int.tmod_add_mul_tdiv n b

/-- **A TUPLE IS ITS NUMBER.** -/
theorem encode_inj {es : List Int} (hd : Within bs ds) (he : Within bs es)
    (h : encode bs ds = encode bs es) : ds = es := by
  rw [← digits_encode hd, ← digits_encode he, h]

end PbMixedRadix
