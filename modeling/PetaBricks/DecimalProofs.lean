import Mathlib.Data.List.Basic
import Mathlib.Tactic.IntervalCases

/-! # Decimal digits — numbers as texts

    A natural number is printed as its digits, the highest first; digits are read back
    one after the other.  Where the digits are followed by something else, the longest
    run of digits is the number again. -/

namespace PbDecimal

/-- The character of a digit. -/
def digitChar (d : Nat) : Char := Char.ofNat (48 + d)

/-- The value of a digit. -/
def digitVal (c : Char) : Nat := c.toNat - 48

/-- The digits of a number. -/
def digitsText (n : Nat) : List Char :=
  if n < 10 then [digitChar n] else digitsText (n / 10) ++ [digitChar (n % 10)]
termination_by n
decreasing_by omega

/-- The number with these digits. -/
def ofDigits (ds : List Char) : Nat := ds.foldl (fun a c => 10 * a + digitVal c) 0

/-- What follows has no digit in front. -/
def NoDigit (t : List Char) : Prop := ∀ c ∈ t.head?, c.isDigit = false

theorem digitVal_digitChar {d : Nat} (h : d < 10) : digitVal (digitChar d) = d := by
  interval_cases d <;> rfl

theorem isDigit_digitChar {d : Nat} (h : d < 10) : (digitChar d).isDigit = true := by
  interval_cases d <;> rfl

/-- No digit is a letter. -/
theorem isAlpha_of_isDigit {c : Char} (h : c.isDigit = true) : c.isAlpha = false := by
  simp only [Char.isDigit, Bool.and_eq_true, decide_eq_true_eq, ge_iff_le] at h
  have hlo : 48 ≤ c.toNat := UInt32.le_iff_toNat_le.mp h.1
  have hhi : c.toNat ≤ 57 := UInt32.le_iff_toNat_le.mp h.2
  show (decide (65 ≤ c.val ∧ c.val ≤ 90) || decide (97 ≤ c.val) && decide (c.val ≤ 122)) = false
  simp only [Bool.or_eq_false_iff, Bool.and_eq_false_iff, decide_eq_false_iff_not]
  refine ⟨fun hup => ?_, .inl fun hlow => ?_⟩
  · have : 65 ≤ c.toNat := UInt32.le_iff_toNat_le.mp hup.1
    omega
  · have : 97 ≤ c.toNat := UInt32.le_iff_toNat_le.mp hlow
    omega

theorem digitVal_lt {c : Char} (h : c.isDigit = true) : digitVal c < 10 := by
  simp only [Char.isDigit, Bool.and_eq_true, decide_eq_true_eq] at h
  have hc : c.val ≤ 57 := h.2
  have hnat : c.toNat ≤ 57 := UInt32.le_iff_toNat_le.mp hc
  rw [digitVal]
  omega

/-- **THE DIGITS OF A NUMBER ARE READ BACK.** -/
@[simp] theorem ofDigits_digitsText (n : Nat) : ofDigits (digitsText n) = n := by
  induction n using Nat.strongRecOn with
  | ind n ih =>
      rw [digitsText]
      by_cases h : n < 10
      · rw [if_pos h]
        simp [ofDigits, digitVal_digitChar h]
      · have hrest := ih (n / 10) (by omega)
        rw [ofDigits] at hrest
        rw [if_neg h, ofDigits, List.foldl_append, hrest]
        show 10 * (n / 10) + digitVal (digitChar (n % 10)) = n
        rw [digitVal_digitChar (by omega)]
        omega

theorem digitsText_isDigit (n : Nat) : ∀ c ∈ digitsText n, c.isDigit = true := by
  induction n using Nat.strongRecOn with
  | ind n ih =>
      rw [digitsText]
      intro c hc
      by_cases h : n < 10
      · rw [if_pos h, List.mem_singleton] at hc
        rw [hc]
        exact isDigit_digitChar h
      · rw [if_neg h] at hc
        rcases List.mem_append.mp hc with hrest | hlast
        · exact ih (n / 10) (by omega) c hrest
        · rw [List.mem_singleton.mp hlast]
          exact isDigit_digitChar (by omega)

theorem digitsText_ne_nil (n : Nat) : digitsText n ≠ [] := by
  rw [digitsText]
  split <;> simp

/-- The first digit, and the others. -/
theorem digitsText_eq_cons (n : Nat) :
    ∃ d ds, digitsText n = d :: ds ∧ d.isDigit = true := by
  obtain ⟨d, ds, h⟩ := List.exists_cons_of_ne_nil (digitsText_ne_nil n)
  exact ⟨d, ds, h, digitsText_isDigit n d (h ▸ List.mem_cons_self)⟩

/-- The longest run of digits stops where the digits do. -/
theorem takeWhile_digits {ds t : List Char} (hds : ∀ c ∈ ds, c.isDigit = true) (ht : NoDigit t) :
    (ds ++ t).takeWhile Char.isDigit = ds := by
  rw [List.takeWhile_append_of_pos hds]
  cases t with
  | nil => simp
  | cons c t => simp [ht c rfl]

theorem dropWhile_digits {ds t : List Char} (hds : ∀ c ∈ ds, c.isDigit = true) (ht : NoDigit t) :
    (ds ++ t).dropWhile Char.isDigit = t := by
  rw [List.dropWhile_append_of_pos hds]
  cases t with
  | nil => rfl
  | cons c t => simp [ht c rfl]

end PbDecimal
