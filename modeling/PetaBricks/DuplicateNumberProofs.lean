import PetaBricks.ConfigItemModel

/-! # The number of a duplicate

    A rule with `duplicate` variables is expanded once for each choice of their values, and
    `setDuplicateNumber` takes the choice out of its number: the first variable is the lowest
    digit.  `getDuplicateNumber` goes from the last variable down, and multiplies by the range
    of the variable before, that is of the next one.  So it has the weight of each digit from
    the range of the variable itself and not from that of the first (`shifted`). -/

namespace PbDuplicateNumber

open PbConfigItem PbMixedRadix

/-! ## The rule -/

/-- `duplicateCount`. -/
def duplicateCount (vars : List ConfigItem) : Option ℤ := choiceCount vars 1

/-- The loop of `setDuplicateNumber`, which has a `size_t`. -/
def assign : List ConfigItem → ℤ → Option (List ConfigItem)
  | [], _ => some []
  | dv :: vars, c => dv.range.bind fun r =>
      (assign vars (c.tdiv r)).map ({ dv with initial := dv.min + c.tmod r } :: ·)

/-- The loop of `getDuplicateNumber`, from the last variable: `c` and `lastRange`. -/
def count : List ConfigItem → Option (ℤ × ℤ)
  | [] => some (0, 1)
  | dv :: vars => (count vars).bind fun s => (int (s.1 * s.2)).bind fun c =>
      (int (dv.initial - dv.min)).bind fun d => (int (c + d)).bind fun c =>
        dv.range.map fun r => (c, r)

/-- `getDuplicateNumber`. -/
def getDuplicateNumber (vars : List ConfigItem) : Option ℤ := (count vars).map Prod.fst

/-- `setDuplicateNumber`, with the number before. -/
def setDuplicateNumber (vars : List ConfigItem) (c : ℤ) : Option (List ConfigItem × ℤ) :=
  (getDuplicateNumber vars).bind fun prev => (assign vars c).map fun vars' => (vars', prev)

/-- A call that a `DuplicateExpansionRule` forwards. -/
def delegated {β : Type} (dup : ℤ) (call : List ConfigItem → β) (vars : List ConfigItem) :
    Option (β × List ConfigItem) :=
  (setDuplicateNumber vars dup).bind fun old =>
    (setDuplicateNumber old.1 old.2).map fun last => (call old.1, last.1)

/-- Every variable is inside its range. -/
def InRange (vars : List ConfigItem) : Prop := ∀ v ∈ vars, v.min ≤ v.initial ∧ v.initial ≤ v.max

/-- **THE ROUND TRIP**, from a state of the rule. -/
def RoundTrip (vars : List ConfigItem) : Prop :=
  ∃ n, duplicateCount vars = some n ∧
    (∀ c, 0 ≤ c → c < n → ∃ vars' prev, setDuplicateNumber vars c = some (vars', prev) ∧
      getDuplicateNumber vars' = some c ∧ InRange vars') ∧
    (∀ c, 0 ≤ c → c < n → ∀ d, 0 ≤ d → d < n → assign vars c = assign vars d → c = d) ∧
    ∀ dup, 0 ≤ dup → dup < n → ∀ (β : Type) (call : List ConfigItem → β), ∃ b vars',
      delegated dup call vars = some (b, vars') ∧ getDuplicateNumber vars' = getDuplicateNumber vars

/-! ## What is read -/

/-- What the digits behind are worth, for the code. -/
def shifted : List ℤ → List ℤ → ℤ
  | b :: bs, d :: ds => b * (d + shifted bs ds)
  | _, _ => 0

/-- The digits of a state. -/
def digitsOf (vars : List ConfigItem) : List ℤ := vars.map fun v => v.initial - v.min

section Digits

variable {bs ds : List ℤ} {r : ℤ}

/-- With one range throughout, the weights are right; a range of 1 has no digit but 0. -/
theorem shifted_eq (hbs : ∀ b ∈ bs, b = 1 ∨ b = r) (hd : Within bs ds) :
    shifted bs ds = r * encode bs ds := by
  induction hd with
  | nil => exact (mul_zero r).symm
  | @cons b d bs ds hbound _ ih =>
      rw [shifted, encode, ih fun c hc => hbs c (List.mem_cons_of_mem _ hc)]
      rcases hbs b List.mem_cons_self with rfl | rfl
      · obtain rfl : d = 0 := by omega
        rw [zero_add, zero_add, one_mul, one_mul]
      · rfl

theorem within_zeros (hbs : ∀ b ∈ bs, 1 ≤ b) : Within bs (bs.map fun _ => 0) := by
  rw [Within, List.forall₂_map_right_iff, List.forall₂_same]
  exact fun b hb => ⟨le_rfl, hbs b hb⟩

theorem encode_zeros : encode bs (bs.map fun _ => 0) = 0 := by
  induction bs with
  | nil => rfl
  | cons b bs ih => rw [List.map_cons, encode, ih, mul_zero, add_zero]

theorem shifted_zeros : shifted bs (bs.map fun _ => 0) = 0 := by
  induction bs with
  | nil => rfl
  | cons b bs ih => rw [List.map_cons, shifted, ih, add_zero, mul_zero]

/-- Where all numbers are read right, no other range occurs: the digit 1 shows it. -/
theorem uniform_of_shifted (hbs : ∀ b ∈ bs, 1 ≤ b)
    (h : ∀ ds, Within bs ds → shifted bs ds = r * encode bs ds) : ∀ b ∈ bs, b = 1 ∨ b = r := by
  induction bs with
  | nil => intro b hb; cases hb
  | cons b bs ih =>
      have hb := hbs b List.mem_cons_self
      have hrest : ∀ c ∈ bs, 1 ≤ c := fun c hc => hbs c (List.mem_cons_of_mem _ hc)
      intro c hc
      rcases List.mem_cons.mp hc with rfl | hc
      · by_cases hone : c = 1
        · exact .inl hone
        · have hread := h (1 :: bs.map fun _ => 0)
            (.cons ⟨by omega, by omega⟩ (within_zeros hrest))
          rw [shifted, encode, encode_zeros, shifted_zeros] at hread
          exact .inr (by linarith)
      · refine ih hrest (fun ds hds => ?_) c hc
        have hread := h (0 :: ds) (.cons ⟨le_rfl, by omega⟩ hds)
        rw [shifted, encode] at hread
        have hcancel : b * shifted bs ds = b * (r * encode bs ds) := by linarith
        exact mul_left_cancel₀ (by omega) hcancel

end Digits

/-! ## What is assigned -/

section Assigned

variable {vars : List ConfigItem}

theorem InRange.ranged (h : InRange vars) : Ranged vars :=
  fun v hv => (h v hv).1.trans (h v hv).2

theorem InRange.within (h : InRange vars) : Within (widths vars) (digitsOf vars) := by
  rw [Within, widths, digitsOf, List.forall₂_map_left_iff, List.forall₂_map_right_iff,
    List.forall₂_same]
  intro v hv
  have hv := h v hv
  rw [ConfigItem.width]
  omega

/-- The variables with these digits. -/
def withDigits (vars : List ConfigItem) (ds : List ℤ) : List ConfigItem :=
  vars.zipWith (fun v d => { v with initial := v.min + d }) ds

theorem assign_eq (h : Ranged vars) (hlt : ∀ b ∈ widths vars, b < 2 ^ 31) (c : ℤ) :
    assign vars c = some (withDigits vars (digits (widths vars) c)) := by
  induction vars generalizing c with
  | nil => rfl
  | cons v vars ih =>
      have hv := h v List.mem_cons_self
      have hw := ConfigItem.width_pos hv
      rw [assign, ConfigItem.range_eq hv, int_of_nonneg (by omega) (hlt _ List.mem_cons_self),
        Option.bind_some, ih h.tail fun b hb => hlt b (List.mem_cons_of_mem _ hb)]
      rfl

theorem digitsOf_withDigits {ds : List ℤ} (h : Within (widths vars) ds) :
    digitsOf (withDigits vars ds) = ds := by
  induction vars generalizing ds with
  | nil =>
      cases h
      rfl
  | cons v vars ih =>
      cases h with
      | cons hd hrest =>
          rw [withDigits, List.zipWith_cons_cons, digitsOf, List.map_cons, add_sub_cancel_left]
          exact congrArg (_ :: ·) (ih hrest)

theorem widths_withDigits {ds : List ℤ} (h : Within (widths vars) ds) :
    widths (withDigits vars ds) = widths vars := by
  induction vars generalizing ds with
  | nil => rfl
  | cons v vars ih =>
      cases h with
      | cons hd hrest => exact congrArg (v.width :: ·) (ih hrest)

theorem inRange_withDigits {ds : List ℤ} (h : Within (widths vars) ds) :
    InRange (withDigits vars ds) := by
  induction vars generalizing ds with
  | nil => intro v hv; cases hv
  | cons v vars ih =>
      cases h with
      | @cons _ d _ ds hd hrest =>
          intro u hu
          rcases List.mem_cons.mp hu with rfl | hu
          · have hwidth : d < v.max - v.min + 1 := hd.2
            show v.min ≤ v.min + d ∧ v.min + d ≤ v.max
            omega
          · exact ih hrest u hu

end Assigned

/-! ## What is counted -/

section Counted

variable {v : ConfigItem} {vars : List ConfigItem} {r : ℤ}

/-- One turn of the loop, where nothing leaves the range of `int`. -/
theorem count_cons (h : v.min ≤ v.max) {c b : ℤ} (hc : count (v :: vars) = some (c, b)) :
    ∃ s, count vars = some s ∧ c = s.1 * s.2 + (v.initial - v.min) ∧ b = v.width := by
  rw [count] at hc
  obtain ⟨s, hrest, hc⟩ := Option.bind_eq_some_iff.mp hc
  obtain ⟨m, hm, hc⟩ := Option.bind_eq_some_iff.mp hc
  obtain ⟨d, hd, hc⟩ := Option.bind_eq_some_iff.mp hc
  obtain ⟨n, hn, hc⟩ := Option.bind_eq_some_iff.mp hc
  obtain ⟨w, hw, heq⟩ := Option.map_eq_some_iff.mp hc
  obtain ⟨rfl, rfl⟩ := Prod.mk.inj heq
  rw [ConfigItem.range_eq h] at hw
  obtain ⟨-, rfl⟩ := int_eq_some.mp hw
  obtain ⟨-, rfl⟩ := int_eq_some.mp hn
  obtain ⟨-, rfl⟩ := int_eq_some.mp hd
  obtain ⟨-, rfl⟩ := int_eq_some.mp hm
  exact ⟨s, hrest, rfl, rfl⟩

/-- What the loop has at the variable before. -/
theorem count_shifted (h : Ranged vars) {c b : ℤ} (hc : count vars = some (c, b)) :
    c * b = shifted (widths vars) (digitsOf vars) := by
  induction vars generalizing c b with
  | nil =>
      obtain ⟨rfl, rfl⟩ := Prod.mk.inj (Option.some.inj hc)
      rfl
  | cons v vars ih =>
      obtain ⟨s, hrest, rfl, rfl⟩ := count_cons (h v List.mem_cons_self) hc
      rw [widths, digitsOf, List.map_cons, List.map_cons, shifted, ← widths, ← digitsOf,
        ← ih h.tail hrest, mul_comm, add_comm]

/-- What `getDuplicateNumber` returns, if it returns. -/
theorem getDuplicateNumber_cons (h : Ranged (v :: vars)) {c : ℤ}
    (hc : getDuplicateNumber (v :: vars) = some c) :
    c = (v.initial - v.min) + shifted (widths vars) (digitsOf vars) := by
  obtain ⟨⟨n, b⟩, hn, rfl⟩ := Option.map_eq_some_iff.mp hc
  obtain ⟨s, hrest, rfl, -⟩ := count_cons (h v List.mem_cons_self) hn
  rw [count_shifted h.tail hrest, add_comm]

/-- A turn of the loop that stays in the range of `int`. -/
theorem count_cons_some {s : ℤ × ℤ} (hs : count vars = some s) (h0 : 0 ≤ s.1 * s.2)
    (hv : v.min ≤ v.initial ∧ v.initial ≤ v.max)
    (hlt : s.1 * s.2 + (v.initial - v.min) < 2 ^ 31) (hw : v.width < 2 ^ 31) :
    count (v :: vars) = some (s.1 * s.2 + (v.initial - v.min), v.width) := by
  have hmin : v.min ≤ v.max := hv.1.trans hv.2
  have hpos := ConfigItem.width_pos hmin
  rw [count, hs, Option.bind_some, int_of_nonneg h0 (by omega), Option.bind_some,
    int_of_nonneg (by omega) (by omega), Option.bind_some, int_of_nonneg (by omega) hlt,
    Option.bind_some, ConfigItem.range_eq hmin, int_of_nonneg (by omega) hw]
  rfl

/-- With one range throughout, the loop stays in the range of `int`. -/
theorem count_eq (h : InRange vars) (hr : 1 ≤ r) (huni : ∀ b ∈ widths vars, b = 1 ∨ b = r)
    (hlt : r * (widths vars).prod < 2 ^ 31) :
    ∃ s, count vars = some s ∧ s.1 * s.2 = r * encode (widths vars) (digitsOf vars) := by
  induction vars with
  | nil => exact ⟨(0, 1), rfl, (mul_zero r).symm⟩
  | cons v vars ih =>
      have hv := h v List.mem_cons_self
      have hrest : InRange vars := fun u hu => h u (List.mem_cons_of_mem _ hu)
      have hbounds := encode_bounds hrest.within
      have hwidth := ConfigItem.width_pos (hv.1.trans hv.2)
      have hone := huni v.width List.mem_cons_self
      have hprod : r * (widths (v :: vars)).prod = v.width * (r * (widths vars).prod) := by
        rw [widths, List.map_cons, List.prod_cons, ← widths]
        exact mul_left_comm r v.width _
      have hbelow : r * (encode (widths vars) (digitsOf vars) + 1) ≤ r * (widths vars).prod :=
        Int.mul_le_mul_of_nonneg_left (by omega) (by omega)
      have hnonneg : 0 ≤ r * encode (widths vars) (digitsOf vars) :=
        mul_nonneg (by omega) hbounds.1
      have hsmall : r * (widths vars).prod < 2 ^ 31 := by
        rw [hprod] at hlt
        nlinarith
      rw [mul_add, mul_one] at hbelow
      obtain ⟨s, hs, heq⟩ := ih hrest (fun b hb => huni b (List.mem_cons_of_mem _ hb)) hsmall
      have hdigit : v.initial - v.min < v.width := by
        rw [ConfigItem.width]
        omega
      have hle : v.width ≤ r := by rcases hone with hone | hone <;> omega
      refine ⟨_, count_cons_some hs (by omega) hv (by omega) (by nlinarith), ?_⟩
      rw [heq]
      show (r * encode (widths vars) (digitsOf vars) + (v.initial - v.min)) * v.width =
        r * encode (v.width :: widths vars) ((v.initial - v.min) :: digitsOf vars)
      rw [encode]
      rcases hone with hone | hone
      · have hzero : v.initial - v.min = 0 := by omega
        rw [hone, hzero, add_zero, mul_one, zero_add, one_mul]
      · rw [hone, mul_comm, add_comm]

/-- Then the number is the one that the digits encode. -/
theorem getDuplicateNumber_eq (h : InRange (v :: vars))
    (huni : ∀ b ∈ widths vars, b = 1 ∨ b = v.width)
    (hlt : (widths (v :: vars)).prod < 2 ^ 31) :
    getDuplicateNumber (v :: vars) =
      some (encode (widths (v :: vars)) (digitsOf (v :: vars))) := by
  have hv := h v List.mem_cons_self
  have hrest : InRange vars := fun u hu => h u (List.mem_cons_of_mem _ hu)
  have hprod : (widths (v :: vars)).prod = v.width * (widths vars).prod := List.prod_cons
  have hwidth := ConfigItem.width_pos (hv.1.trans hv.2)
  obtain ⟨s, hs, heq⟩ := count_eq hrest hwidth huni (hprod ▸ hlt)
  have hbounds := encode_bounds h.within
  have hencode : encode (widths (v :: vars)) (digitsOf (v :: vars)) =
      s.1 * s.2 + (v.initial - v.min) := by
    rw [heq, add_comm]
    rfl
  have hnonneg : 0 ≤ s.1 * s.2 := by
    rw [heq]
    exact mul_nonneg (by omega) (encode_bounds hrest.within).1
  have hle := le_prod (one_le_widths h.ranged) (List.mem_cons_self : v.width ∈ widths (v :: vars))
  rw [hencode] at hbounds ⊢
  rw [getDuplicateNumber, count_cons_some hs hnonneg hv (by omega) (by omega)]
  rfl

end Counted

/-! ## When the round trip holds -/

/-- Every range is 1, or that of the first variable. -/
def Uniform (vars : List ConfigItem) : Prop :=
  ∀ b ∈ widths vars, b = 1 ∨ (widths vars).head? = some b

section RoundTrip

variable {vars : List ConfigItem}

theorem duplicateCount_eq (h : Ranged vars) : duplicateCount vars = int (widths vars).prod := by
  rw [duplicateCount, choiceCount_eq h le_rfl (by decide), one_mul]

theorem read_eq (h : InRange vars) (huni : Uniform vars) (hlt : (widths vars).prod < 2 ^ 31) :
    getDuplicateNumber vars = some (encode (widths vars) (digitsOf vars)) := by
  cases vars with
  | nil => rfl
  | cons v vars =>
      refine getDuplicateNumber_eq h (fun b hb => ?_) hlt
      refine (huni b (List.mem_cons_of_mem _ hb)).imp_right fun heq => ?_
      exact (Option.some.inj heq).symm

/-- Setting a number below the count, where the ranges are uniform. -/
theorem set_eq (h : InRange vars) (huni : Uniform vars) (hlt : (widths vars).prod < 2 ^ 31)
    {c : ℤ} (h0 : 0 ≤ c) (hc : c < (widths vars).prod) :
    ∃ vars', setDuplicateNumber vars c = some (vars', encode (widths vars) (digitsOf vars)) ∧
      InRange vars' ∧ widths vars' = widths vars ∧ getDuplicateNumber vars' = some c := by
  have hone := one_le_widths h.ranged
  have hnonneg : ∀ b ∈ widths vars, 0 ≤ b := fun b hb => by have := hone b hb; omega
  have hwithin := digits_within hnonneg h0 hc
  have hrange := inRange_withDigits hwithin
  have hwidths := widths_withDigits hwithin
  refine ⟨withDigits vars (digits (widths vars) c), ?_, hrange, hwidths, ?_⟩
  · rw [setDuplicateNumber, read_eq h huni hlt,
      assign_eq h.ranged (fun b hb => (le_prod hone hb).trans_lt hlt)]
    rfl
  · rw [read_eq hrange (by rwa [Uniform, hwidths]) (by rwa [hwidths]), hwidths,
      digitsOf_withDigits hwithin, encode_digits hnonneg h0 hc]

theorem roundTrip_of_uniform (h : InRange vars) (huni : Uniform vars)
    (hlt : (widths vars).prod < 2 ^ 31) : RoundTrip vars := by
  have hone := one_le_widths h.ranged
  have hnonneg : ∀ b ∈ widths vars, 0 ≤ b := fun b hb => by have := hone b hb; omega
  have hprod := one_le_prod hone
  refine ⟨(widths vars).prod, ?_, fun c h0 hc => ?_, fun c h0 hc d hd0 hd heq => ?_,
    fun dup h0 hdup β call => ?_⟩
  · rw [duplicateCount_eq h.ranged, int_of_nonneg (by omega) hlt]
  · obtain ⟨vars', hset, hrange, -, hget⟩ := set_eq h huni hlt h0 hc
    exact ⟨vars', _, hset, hget, hrange⟩
  · have hbelow : ∀ b ∈ widths vars, b < 2 ^ 31 := fun b hb => (le_prod hone hb).trans_lt hlt
    rw [assign_eq h.ranged hbelow, assign_eq h.ranged hbelow] at heq
    have hdigits := congrArg digitsOf (Option.some.inj heq)
    rw [digitsOf_withDigits (digits_within hnonneg h0 hc),
      digitsOf_withDigits (digits_within hnonneg hd0 hd)] at hdigits
    rw [← encode_digits hnonneg h0 hc, hdigits, encode_digits hnonneg hd0 hd]
  · obtain ⟨hold0, hold⟩ := encode_bounds h.within
    obtain ⟨vars', hset, hrange, hwidths, -⟩ := set_eq h huni hlt h0 hdup
    obtain ⟨vars'', hset', -, -, hget⟩ := @set_eq vars' hrange
      (by rwa [Uniform, hwidths]) (by rwa [hwidths]) _ hold0 (by rwa [hwidths])
    refine ⟨call vars', vars'', ?_, ?_⟩
    · rw [delegated, hset, Option.bind_some, hset']
      rfl
    · rw [hget, read_eq h huni hlt]

/-- **THE ROUND TRIP** holds just if the choices can be counted, and all variables with more than
    one value have the range of the first. -/
theorem roundTrip_iff (vars : List ConfigItem) (h : InRange vars) :
    RoundTrip vars ↔ (widths vars).prod < 2 ^ 31 ∧ Uniform vars := by
  refine ⟨?_, fun hright => roundTrip_of_uniform h hright.2 hright.1⟩
  rintro ⟨n, hn, hset, -⟩
  have hone := one_le_widths h.ranged
  rw [duplicateCount_eq h.ranged] at hn
  obtain ⟨⟨-, hlt⟩, rfl⟩ := int_eq_some.mp hn
  refine ⟨hlt, ?_⟩
  cases vars with
  | nil => intro b hb; cases hb
  | cons v vars =>
      have hv := hone v.width List.mem_cons_self
      have hread : ∀ ds, Within (widths vars) ds →
          shifted (widths vars) ds = v.width * encode (widths vars) ds := by
        intro ds hds
        have hwithin : Within (widths (v :: vars)) (0 :: ds) := .cons ⟨le_rfl, by omega⟩ hds
        obtain ⟨h0, hbelow⟩ := encode_bounds hwithin
        obtain ⟨vars', prev, hvars', hget, -⟩ := hset _ h0 hbelow
        obtain ⟨_, -, hassign⟩ := Option.bind_eq_some_iff.mp hvars'
        rw [assign_eq h.ranged (fun b hb => (le_prod hone hb).trans_lt hlt),
          digits_encode hwithin] at hassign
        obtain ⟨rfl, -⟩ := Prod.mk.inj (Option.some.inj hassign)
        have hranged : Ranged (withDigits (v :: vars) (0 :: ds)) :=
          (inRange_withDigits hwithin).ranged
        have hvalue := getDuplicateNumber_cons hranged hget
        have htail : widths (withDigits vars ds) = widths vars := widths_withDigits hds
        have hdigits : digitsOf (withDigits vars ds) = ds := digitsOf_withDigits hds
        rw [← withDigits, htail, hdigits] at hvalue
        have hencode : encode (widths (v :: vars)) (0 :: ds) =
            0 + v.width * encode (widths vars) ds := rfl
        rw [hencode] at hvalue
        linarith
      intro b hb
      rcases List.mem_cons.mp hb with rfl | hb
      · exact .inr rfl
      · refine (uniform_of_shifted (fun c hc => hone c (List.mem_cons_of_mem _ hc)) hread b hb).imp_right
          fun heq => ?_
        rw [heq]
        rfl

end RoundTrip

/-- `duplicate i in 1..2, j in 0..2`, as they are at first. -/
def twoByThree : List ConfigItem := [⟨1, 1, 2⟩, ⟨0, 0, 2⟩]

/-- The second choice of `j` is number 3 and not 2. -/
theorem not_roundTrip_twoByThree : ¬ RoundTrip twoByThree := by
  rintro ⟨n, hn, hset, -⟩
  have hcount : duplicateCount twoByThree = some 6 := by decide
  obtain rfl : 6 = n := Option.some.inj (hcount.symm.trans hn)
  obtain ⟨vars', prev, hvars', hget, -⟩ := hset 2 (by decide) (by decide)
  have hread : (setDuplicateNumber twoByThree 2).bind (fun s => getDuplicateNumber s.1) =
      some 3 := by decide
  rw [hvars', Option.bind_some, hget] at hread
  cases hread

/-- `duplicate i in 1..2, j in 4..4, k in 0..1`. -/
theorem roundTrip_iff_uniform :
    InRange [⟨1, 1, 2⟩, ⟨4, 4, 4⟩, ⟨0, 0, 1⟩] ∧ RoundTrip [⟨1, 1, 2⟩, ⟨4, 4, 4⟩, ⟨0, 0, 1⟩] := by
  have hrange : InRange [⟨1, 1, 2⟩, ⟨4, 4, 4⟩, ⟨0, 0, 1⟩] := by
    unfold InRange
    decide
  refine ⟨hrange, (roundTrip_iff _ hrange).mpr ⟨by decide, ?_⟩⟩
  unfold Uniform
  decide

end PbDuplicateNumber
