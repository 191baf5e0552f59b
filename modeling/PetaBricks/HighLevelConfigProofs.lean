import Mathlib.Tactic.Linarith
import Mathlib.Tactic.Positivity
import PetaBricks.HighLevelConfigModel
import PetaBricks.SlotFoldProofs

/-! # What the tuner's operations keep

    A draw is taken between two bounds, and its result stays between them under conditions
    on the bounds and the outcome: `rnd_uniform` can leave them at the upper end, and all of
    them do where the bounds are the wrong way round.  The loops of a selector take their
    bounds from the levels next to the one that is written, so that the order of the cutoffs
    is an invariant (`sorted_setCutoff`) as long as the input size is not below them.

    Every item has a part of the configuration to itself, and a whole operation does to each
    part what one item does (`PbSlotFold.Local.foldl_own`). -/

namespace PbHighLevelConfig

open PbRounding Selector

/-! ## Draws -/

/-- The outcome of `random.uniform` is below the upper end, and `int` does not round it up
    there either. -/
def UniformSafe (max : ℤ) (x : ℚ) : Prop := x < max + 1 ∧ (0 ≤ max ∨ x ≤ max)

/-- The bounds are the right way round, and the draw is safe if it is a uniform one. -/
def LognormalSafe (minv maxv : ℤ) (t : Fraction) : Prop :=
  minv ≤ maxv ∧ (maxv - minv < 16 → UniformSafe maxv (uniform minv (maxv + 1) t))

theorem le_uniform {a b : ℤ} (h : a ≤ b) (t : Fraction) : (a : ℚ) ≤ uniform a b t := by
  have hab : (a : ℚ) ≤ b := by exact_mod_cast h
  have hmul : 0 ≤ ((b : ℚ) - a) * t.1 := mul_nonneg (by linarith) t.2.1
  rw [uniform]
  linarith

theorem rndUniform_within {min max : ℤ} {t : Fraction} (h : min ≤ max)
    (hs : UniformSafe max (uniform min (max + 1) t)) :
    min ≤ rndUniform min max t ∧ rndUniform min max t ≤ max := by
  obtain ⟨hlt, hend⟩ := hs
  constructor
  · calc min = truncate min := (truncate_intCast min).symm
      _ ≤ _ := truncate_mono (le_uniform (by omega) t)
  · rw [rndUniform]
    rcases hend with hmax | hle
    · by_cases hx : 0 ≤ uniform min (max + 1) t
      · rw [truncate, if_pos hx]
        have hfloor : ⌊uniform min (max + 1) t⌋ < max + 1 :=
          Int.floor_lt.mpr (by push_cast; exact hlt)
        omega
      · exact (truncate_nonpos (not_le.mp hx).le).trans hmax
    · calc _ ≤ truncate max := truncate_mono hle
        _ = max := truncate_intCast max

theorem rndLoguniform_within {min max : ℤ} (h : min ≤ max) (r : Fraction) :
    min ≤ rndLoguniform min max r ∧ rndLoguniform min max r ≤ max := by
  have hq : (min : ℚ) ≤ max := by exact_mod_cast h
  have hlo : 0 ≤ ((max : ℚ) - min) * r.1 := mul_nonneg (by linarith) r.2.1
  have hhi : ((max : ℚ) - min) * r.1 ≤ max - min := mul_le_of_le_one_right (by linarith) r.2.2
  rw [rndLoguniform]
  constructor
  · calc min = truncate min := (truncate_intCast min).symm
      _ ≤ _ := truncate_mono (by linarith)
  · calc _ ≤ truncate max := truncate_mono (by linarith)
      _ = max := truncate_intCast max

/-- With the bounds the wrong way round. -/
theorem rndLoguniform_turned {min max : ℤ} (h : max ≤ min) (r : Fraction) :
    max ≤ rndLoguniform min max r ∧ rndLoguniform min max r ≤ min := by
  have hq : (max : ℚ) ≤ min := by exact_mod_cast h
  have hlo : 0 ≤ ((min : ℚ) - max) * r.1 := mul_nonneg (by linarith) r.2.1
  have hhi : ((min : ℚ) - max) * r.1 ≤ min - max := mul_le_of_le_one_right (by linarith) r.2.2
  rw [rndLoguniform]
  constructor
  · calc max = truncate max := (truncate_intCast max).symm
      _ ≤ _ := truncate_mono (by linarith)
  · calc _ ≤ truncate min := truncate_mono (by linarith)
      _ = min := truncate_intCast min

theorem rndLognormal_within (mean : ℤ) {minv maxv : ℤ} {t : Fraction} (r : {r : ℚ // 0 ≤ r})
    (h : LognormalSafe minv maxv t) :
    minv ≤ rndLognormal mean minv maxv t r ∧ rndLognormal mean minv maxv t r ≤ maxv := by
  obtain ⟨hle, hs⟩ := h
  rw [rndLognormal]
  by_cases hrange : maxv - minv < 16
  · rw [if_pos hrange]
    exact rndUniform_within hle (hs hrange)
  · rw [if_neg hrange]
    exact ⟨le_max_left _ _, max_le hle (min_le_right _ _)⟩

theorem hillclimb_within (p1 p2 : ℤ) {minv maxv : ℤ} (h : minv ≤ maxv) :
    minv ≤ hillclimb p1 p2 minv maxv ∧ hillclimb p1 p2 minv maxv ≤ maxv := by
  simp only [hillclimb]
  split
  · exact ⟨le_refl _, h⟩
  · split <;> constructor <;> omega

/-! ## The levels of a selector -/

/-- The rules are in range, and the cutoffs do not decrease. -/
structure Levels.Valid (rules : ℕ) (l : Levels) : Prop where
  rule : ∀ i, 1 ≤ i → i < maxLevels → 0 ≤ l.rule i ∧ l.rule i < rules
  sorted : ∀ i, 2 ≤ i → i + 1 < maxLevels → l.cutoff i ≤ l.cutoff (i + 1)

variable {rules i k : ℕ} {n v : ℤ} {o : Outcomes} {l l₀ : Levels}

@[simp] theorem setCutoff_rule : (setCutoff l i v).rule = l.rule := rfl

@[simp] theorem setRule_cutoff : (setRule l i v).cutoff = l.cutoff := rfl

theorem setCutoff_same : (setCutoff l i v).cutoff i = v := by
  simp [setCutoff]

theorem setCutoff_other {j : ℕ} (h : j ≠ i) : (setCutoff l i v).cutoff j = l.cutoff j := by
  simp [setCutoff, h]

theorem setRule_same : (setRule l i v).rule i = v := by
  simp [setRule]

theorem setRule_other {j : ℕ} (h : j ≠ i) : (setRule l i v).rule j = l.rule j := by
  simp [setRule, h]

theorem randomrule_within (h : 0 < rules) (c : ℕ) :
    0 ≤ randomrule rules c ∧ randomrule rules c < rules := by
  have hmod := Nat.mod_lt c h
  rw [randomrule]
  omega

theorem Levels.Valid.setRule (h : l.Valid rules) (hv : 0 ≤ v ∧ v < rules) :
    (setRule l i v).Valid rules := by
  refine ⟨fun j h1 hlt => ?_, h.sorted⟩
  by_cases hj : j = i
  · rw [hj, setRule_same]
    exact hv
  · rw [setRule_other hj]
    exact h.rule j h1 hlt

/-- A cutoff between the ones next to it. -/
theorem sorted_setCutoff (h : l.Valid rules) (hlow : 2 < i → l.cutoff (i - 1) ≤ v)
    (hhigh : i + 1 < maxLevels → v ≤ l.cutoff (i + 1)) : (setCutoff l i v).Valid rules := by
  refine ⟨h.rule, fun j h2 hlt => ?_⟩
  by_cases hj : j = i
  · rw [hj] at hlt h2 ⊢
    rw [setCutoff_same, setCutoff_other (by omega)]
    exact hhigh hlt
  · by_cases hj' : j + 1 = i
    · rw [hj', setCutoff_same, setCutoff_other hj]
      have hprev : i - 1 = j := by omega
      rw [← hprev]
      exact hlow (by omega)
    · rw [setCutoff_other hj, setCutoff_other hj']
      exact h.sorted j h2 hlt

theorem high_le (h : i + 1 < maxLevels) : high n l i ≤ l.cutoff (i + 1) := by
  rw [high, if_neg (by omega)]
  exact min_le_right _ _

theorem high_le_size : high n l i ≤ n := by
  rw [high]
  split
  · exact le_refl n
  · exact min_le_left _ _

/-- A lower bound of the input size and of the cutoff itself. -/
theorem le_high (hv : l.Valid rules) (h2 : 2 ≤ i) (hlt : i < maxLevels) {x : ℤ} (hn : x ≤ n)
    (hx : x ≤ l.cutoff i) : x ≤ high n l i := by
  rw [high]
  split
  · exact hn
  · exact le_min hn (hx.trans (hv.sorted i h2 (by omega)))

/-- The bound of a level does not depend on what is below it. -/
theorem high_congr (h : ∀ j, i < j → l.cutoff j = l₀.cutoff j) : high n l i = high n l₀ i := by
  rw [high, high, h (i + 1) (Nat.lt_succ_self i)]

/-! ### Randomizing -/

/-- The sums of the draws cannot pass the mark for disabled levels where one comes behind
    them. -/
def Selector.RandomizeSafe (n : ℤ) (o : Outcomes) : Prop :=
  2 < levelsOf o → levelsOf o < maxLevels → n * 2 ^ (levelsOf o - 3) ≤ disabled

/-- What is added to the sum. -/
theorem next_cutoff (hv : 0 ≤ v) (hn : 0 ≤ n) (r : Fraction) :
    v ≤ v + rndLoguniform v n r ∧ v + rndLoguniform v n r ≤ v + max v n := by
  rcases le_total v n with h | h
  · have hw := rndLoguniform_within h r
    rw [max_eq_right h]
    omega
  · have hw := rndLoguniform_turned h r
    rw [max_eq_left h]
    omega

/-- The levels below and above are left alone. -/
theorem enableFrom_other {j : ℕ} (h : j < i ∨ i + k ≤ j) :
    (enableFrom rules n o k i v l).cutoff j = l.cutoff j ∧
      (enableFrom rules n o k i v l).rule j = l.rule j := by
  induction k generalizing i v l with
  | zero => exact ⟨rfl, rfl⟩
  | succ k ih =>
      obtain ⟨hc, hr⟩ := ih (i := i + 1) (v := v + rndLoguniform v n (o.log i))
        (l := setRule (setCutoff l i _) i (randomrule rules (o.choice i))) (by omega)
      have hj : j ≠ i := by omega
      exact ⟨hc.trans (setCutoff_other hj), hr.trans (setRule_other hj)⟩

theorem enableFrom_rule (hrules : 0 < rules) {j : ℕ} (h : i ≤ j) (hj : j < i + k) :
    0 ≤ (enableFrom rules n o k i v l).rule j ∧ (enableFrom rules n o k i v l).rule j < rules := by
  induction k generalizing i v l with
  | zero => omega
  | succ k ih =>
      rw [enableFrom]
      by_cases heq : j = i
      · rw [heq, (enableFrom_other (.inl (Nat.lt_succ_self i))).2, setRule_same]
        exact randomrule_within hrules _
      · exact ih (by omega) (by omega)

/-- The cutoffs go up from the sum at the beginning, which at most doubles each time. -/
theorem enableFrom_cutoff (hv : 0 ≤ v) (hn : 0 ≤ n) {b : ℤ} (hb : n ≤ b) (hvb : v ≤ b) {j : ℕ}
    (h : i ≤ j) (hj : j < i + k) :
    v ≤ (enableFrom rules n o k i v l).cutoff j ∧
      (enableFrom rules n o k i v l).cutoff j ≤ b * 2 ^ k ∧
      (j + 1 < i + k → (enableFrom rules n o k i v l).cutoff j ≤
        (enableFrom rules n o k i v l).cutoff (j + 1)) := by
  induction k generalizing i v l b j with
  | zero => omega
  | succ k ih =>
      rw [enableFrom]
      obtain ⟨hle, hmax⟩ := next_cutoff hv hn (o.log i)
      have hvb' : v + rndLoguniform v n (o.log i) ≤ b * 2 := by
        have := max_le hvb hb
        omega
      have hpow : b * 2 ^ (k + 1) = b * 2 * 2 ^ k := by ring
      rw [hpow]
      by_cases heq : j = i
      · have hfirst : ∀ l', (enableFrom rules n o k (i + 1) (v + rndLoguniform v n (o.log i))
            (setRule (setCutoff l' i (v + rndLoguniform v n (o.log i))) i
              (randomrule rules (o.choice i)))).cutoff i = v + rndLoguniform v n (o.log i) := by
          intro l'
          rw [(enableFrom_other (.inl (Nat.lt_succ_self i))).1, setRule_cutoff, setCutoff_same]
        rw [heq, hfirst]
        refine ⟨hle, hvb'.trans ?_, fun hlt => ?_⟩
        · have hb2 : 0 ≤ b * 2 := by omega
          exact le_mul_of_one_le_right hb2 (one_le_pow₀ (by norm_num))
        · exact (ih (by omega) (b := b * 2) (by omega) hvb' (le_refl _) (by omega)).1
      · obtain ⟨h1, h2, h3⟩ := ih (i := i + 1) (v := v + rndLoguniform v n (o.log i))
          (l := setRule (setCutoff l i (v + rndLoguniform v n (o.log i))) i
            (randomrule rules (o.choice i))) (by omega) (b := b * 2) (by omega) hvb'
          (j := j) (by omega) (by omega)
        exact ⟨hle.trans h1, h2, fun hlt => h3 (by omega)⟩

theorem disableFrom_spec (j : ℕ) :
    (disableFrom k i l).cutoff j = (if i ≤ j ∧ j < i + k then disabled else l.cutoff j) ∧
      (disableFrom k i l).rule j = (if i ≤ j ∧ j < i + k then 0 else l.rule j) := by
  induction k generalizing i l with
  | zero => simp [disableFrom]
  | succ k ih =>
      rw [disableFrom, (ih (i := i + 1)).1, (ih (i := i + 1)).2]
      by_cases heq : j = i
      · simp [heq, setCutoff_same, setRule_same]
      · have hiff : (i + 1 ≤ j ∧ j < i + 1 + k) ↔ (i ≤ j ∧ j < i + (k + 1)) := by omega
        simp only [hiff, setRule_cutoff, setCutoff_other heq, setRule_other heq, setCutoff_rule,
          and_self]

theorem two_le_levelsOf (o : Outcomes) : 2 ≤ levelsOf o ∧ levelsOf o ≤ maxLevels :=
  ⟨le_min (by omega) (by decide), min_le_right _ _⟩

theorem randomize_valid (hrules : 0 < rules) (hn : 0 ≤ n) (hs : RandomizeSafe n o) :
    (Selector.randomize rules n o l).Valid rules := by
  obtain ⟨hm2, hm⟩ := two_le_levelsOf o
  have hsum : levelsOf o + (maxLevels - levelsOf o) = maxLevels := by omega
  have henabled : 2 + (levelsOf o - 2) = levelsOf o := by omega
  refine ⟨fun i h1 hlt => ?_, fun i h2 hlt => ?_⟩
  · rw [Selector.randomize, (disableFrom_spec i).2, hsum]
    by_cases hi : levelsOf o ≤ i
    · rw [if_pos ⟨hi, hlt⟩]
      exact ⟨le_refl 0, by exact_mod_cast hrules⟩
    · rw [if_neg fun h => hi h.1]
      by_cases hone : i = 1
      · rw [hone, (enableFrom_other (.inl (by omega))).2, setRule_same]
        exact randomrule_within hrules _
      · exact enableFrom_rule hrules (by omega) (by omega)
  · rw [Selector.randomize, (disableFrom_spec i).1, (disableFrom_spec (i + 1)).1, hsum]
    by_cases hi : levelsOf o ≤ i
    · rw [if_pos ⟨hi, by omega⟩, if_pos ⟨by omega, hlt⟩]
    · rw [if_neg fun h => hi h.1]
      -- the first level is drawn between zero and the input size
      obtain ⟨k, hk⟩ : ∃ k, levelsOf o - 2 = k + 1 := ⟨levelsOf o - 3, by omega⟩
      have hfirst := rndLoguniform_within hn (o.log 2)
      by_cases hnext : levelsOf o ≤ i + 1
      · rw [if_pos ⟨hnext, hlt⟩]
        have hbound := hs (by omega) (by omega)
        have hk3 : levelsOf o - 3 = k := by omega
        rw [hk3] at hbound
        refine le_trans ?_ hbound
        rw [hk, enableFrom]
        by_cases heq : i = 2
        · rw [heq, (enableFrom_other (.inl (Nat.lt_succ_self 2))).1, setRule_cutoff,
            setCutoff_same, zero_add]
          exact hfirst.2.trans (le_mul_of_one_le_right hn (one_le_pow₀ (by norm_num)))
        · exact (enableFrom_cutoff (by omega) hn (le_refl n) (by omega) (by omega) (by omega)).2.1
      · rw [if_neg fun h => hnext h.1]
        exact (enableFrom_cutoff (le_refl 0) hn (le_refl n) hn h2 (by omega)).2.2 (by omega)

/-! ### Mutating -/

/-- Where a level is mutated, the draws of the levels below or the input size bound it the right
    way round, and a uniform draw is safe. -/
def Selector.MutateSafe (n : ℤ) (o : Outcomes) (l : Levels) : Prop :=
  ∀ i, 2 ≤ i → i < maxLevels → o.roll i = true → (∀ j, 2 ≤ j → j < i → l.cutoff j < disabled) →
    (i = 2 → 1 ≤ high n l i) ∧
    (2 < i → o.roll (i - 1) = true ∨ l.cutoff (i - 1) ≤ n) ∧
    (l.cutoff i < disabled → (o.uniform i).1 < 1 ∧ 0 ≤ high n l i)

theorem uniformSafe_of_lt {low high : ℤ} {t : Fraction} (h : low ≤ high) (ht : t.1 < 1)
    (h0 : 0 ≤ high) : UniformSafe high (uniform low (high + 1) t) := by
  have hq : (low : ℚ) ≤ high := by exact_mod_cast h
  refine ⟨?_, .inl h0⟩
  have hmul : ((high : ℚ) + 1 - low) * t.1 < high + 1 - low :=
    mul_lt_of_lt_one_right (by linarith) ht
  rw [uniform]
  push_cast
  linarith

/-- **ONE MUTATED LEVEL.**  What is below has been written already, what is above has not. -/
theorem mutateFrom_valid (hrules : 0 < rules) (hs : MutateSafe n o l₀)
    (hik : i + k = maxLevels) (h2 : 2 ≤ i) (hv : l.Valid rules)
    (habove : ∀ j, i ≤ j → l.cutoff j = l₀.cutoff j)
    (hreach : ∀ j, 2 ≤ j → j < i → l₀.cutoff j < disabled)
    (hrolled : 2 < i → o.roll (i - 1) = true → l.cutoff (i - 1) ≤ n)
    (hkept : 2 < i → o.roll (i - 1) = false → l.cutoff (i - 1) = l₀.cutoff (i - 1)) :
    (mutateFrom rules n o k i l).Valid rules := by
  induction k generalizing i l with
  | zero => exact hv
  | succ k ih =>
      have hlt : i < maxLevels := by omega
      have hcut : l.cutoff i = l₀.cutoff i := habove i (le_refl i)
      have hhigh : high n l i = high n l₀ i := high_congr fun j hj => habove j hj.le
      have hreach' : l.cutoff i < disabled → ∀ j, 2 ≤ j → j < i + 1 → l₀.cutoff j < disabled := by
        intro hi j hj2 hj
        by_cases heq : j = i
        · rw [heq, ← hcut]
          exact hi
        · exact hreach j hj2 (by omega)
      have hbounds : o.roll i = true →
          (if i = 2 then 1 else l.cutoff (i - 1)) ≤ high n l i := by
        intro hroll
        obtain ⟨hfirst, hprev, _⟩ := hs i h2 hlt hroll hreach
        by_cases heq : i = 2
        · rw [if_pos heq, hhigh]
          exact hfirst heq
        · rw [if_neg heq]
          have hsorted := hv.sorted (i - 1) (by omega) (by omega)
          rw [show i - 1 + 1 = i by omega] at hsorted
          refine le_high hv h2 hlt ?_ hsorted
          cases hb : o.roll (i - 1) with
          | true => exact hrolled (by omega) hb
          | false =>
              rw [hkept (by omega) hb]
              rcases hprev (by omega) with h | h
              · rw [hb] at h
                cases h
              · exact h
      -- a cutoff between the bounds keeps the order
      have hset : ∀ v, (if i = 2 then 1 else l.cutoff (i - 1)) ≤ v → v ≤ high n l i →
          (setCutoff l i v).Valid rules := by
        intro v hlow hup
        refine sorted_setCutoff hv (fun hi => ?_) fun hi => hup.trans (high_le hi)
        rw [if_neg (by omega)] at hlow
        exact hlow
      rw [mutateFrom]
      by_cases hdis : l.cutoff i ≥ disabled
      · simp only [if_pos hdis]
        by_cases hroll : o.roll i = true
        · rw [if_pos hroll]
          have hw := rndLoguniform_within (hbounds hroll) (o.log i)
          exact (hset _ hw.1 hw.2).setRule (randomrule_within hrules _)
        · rw [if_neg hroll]
          exact hv
      · simp only [if_neg hdis]
        have hi : l.cutoff i < disabled := not_le.mp hdis
        by_cases hroll : o.roll i = true
        · rw [if_pos hroll]
          obtain ⟨_, _, hsafe⟩ := hs i h2 hlt hroll hreach
          obtain ⟨ht, h0⟩ := hsafe (hcut ▸ hi)
          have hw := rndLognormal_within (l.cutoff i) (o.normal i)
            ⟨hbounds hroll, fun _ => uniformSafe_of_lt (hbounds hroll) ht (hhigh ▸ h0)⟩
          refine ih (by omega) (by omega) (hset _ hw.1 hw.2) (fun j hj => ?_) (hreach' hi)
            (fun _ _ => ?_) (fun _ hb => ?_)
          · rw [setCutoff_other (by omega), habove j (by omega)]
          · rw [Nat.add_sub_cancel, setCutoff_same]
            exact hw.2.trans high_le_size
          · rw [Nat.add_sub_cancel, hroll] at hb
            cases hb
        · rw [if_neg hroll]
          refine ih (by omega) (by omega) hv (fun j hj => habove j (by omega)) (hreach' hi)
            (fun _ hb => absurd hb (by rw [Nat.add_sub_cancel]; exact hroll)) (fun _ _ => ?_)
          rw [Nat.add_sub_cancel]
          exact hcut

theorem mutateChance_valid (hrules : 0 < rules) (hs : MutateSafe n o l) (hv : l.Valid rules) :
    (Selector.mutateChance rules n o l).Valid rules :=
  mutateFrom_valid hrules hs (by decide) (le_refl 2) hv (fun _ _ => rfl)
    (fun j h2 hj => absurd hj (by omega)) (fun h => absurd h (by omega))
    (fun h => absurd h (by omega))

/-! ### Hillclimbing -/

variable {p1 p2 : Levels}

/-- Both parents have the level disabled, which is when hillclimbing writes it. -/
def BothDisabled (p1 p2 : Levels) (i : ℕ) : Prop :=
  p1.cutoff i ≥ disabled ∧ p2.cutoff i ≥ disabled

instance (p1 p2 : Levels) (i : ℕ) : Decidable (BothDisabled p1 p2 i) := by
  unfold BothDisabled
  infer_instance

/-- Where a level is written, its bounds are the right way round, and if it was disabled, neither
    the input size nor the difference of the parents brings it below the mark. -/
def Selector.HillclimbSafe (p1 p2 : Levels) (n : ℤ) (l : Levels) : Prop :=
  ∀ i, 2 ≤ i → i < maxLevels → BothDisabled p1 p2 i →
    (i = 2 → 0 ≤ high n l i) ∧
    (2 < i → BothDisabled p1 p2 (i - 1) ∨ l.cutoff (i - 1) ≤ n) ∧
    (disabled ≤ l.cutoff i → disabled ≤ n ∧ disabled ≤ 2 * p2.cutoff i - p1.cutoff i)

theorem le_hillclimb {a b minv maxv x : ℤ} (hx : x ≤ maxv) (hv : x ≤ 2 * b - a) :
    x ≤ hillclimb a b minv maxv := by
  simp only [hillclimb]
  split
  · omega
  · split <;> omega

/-- **ONE LEVEL OF A CLIMB.**  Levels that are disabled everywhere stay so. -/
theorem hillclimbFrom_valid (hs : HillclimbSafe p1 p2 n l₀) (hik : i + k = maxLevels) (h2 : 2 ≤ i)
    (hv : l.Valid rules) (habove : ∀ j, i ≤ j → l.cutoff j = l₀.cutoff j)
    (hwritten : 2 < i → BothDisabled p1 p2 (i - 1) → l.cutoff (i - 1) ≤ n)
    (hkept : 2 < i → ¬ BothDisabled p1 p2 (i - 1) → l.cutoff (i - 1) = l₀.cutoff (i - 1)) :
    (hillclimbFrom p1 p2 n k i l).Valid rules ∧
      ∀ j, 2 ≤ j → j < maxLevels → BothDisabled p1 p2 j → disabled ≤ l.cutoff j →
        disabled ≤ (hillclimbFrom p1 p2 n k i l).cutoff j := by
  induction k generalizing i l with
  | zero => exact ⟨hv, fun _ _ _ _ h => h⟩
  | succ k ih =>
      have hlt : i < maxLevels := by omega
      have hcut : l.cutoff i = l₀.cutoff i := habove i (le_refl i)
      have hhigh : high n l i = high n l₀ i := high_congr fun j hj => habove j hj.le
      rw [hillclimbFrom]
      by_cases hboth : p1.cutoff i ≥ disabled ∧ p2.cutoff i ≥ disabled
      · simp only [if_pos hboth]
        obtain ⟨hfirst, hprev, hmark⟩ := hs i h2 hlt hboth
        have hbounds : (if i = 2 then 0 else l.cutoff (i - 1)) ≤ high n l i := by
          by_cases heq : i = 2
          · rw [if_pos heq, hhigh]
            exact hfirst heq
          · rw [if_neg heq]
            have hsorted := hv.sorted (i - 1) (by omega) (by omega)
            rw [show i - 1 + 1 = i by omega] at hsorted
            refine le_high hv h2 hlt ?_ hsorted
            by_cases hb : BothDisabled p1 p2 (i - 1)
            · exact hwritten (by omega) hb
            · rw [hkept (by omega) hb]
              exact (hprev (by omega)).resolve_left hb
        have hw := hillclimb_within (p1.cutoff i) (p2.cutoff i) hbounds
        have hset : (setCutoff l i (hillclimb (p1.cutoff i) (p2.cutoff i)
            (if i = 2 then 0 else l.cutoff (i - 1)) (high n l i))).Valid rules := by
          refine sorted_setCutoff hv (fun hi => ?_) fun hi => hw.2.trans (high_le hi)
          rw [if_neg (by omega)] at hw ⊢
          exact hw.1
        obtain ⟨hval, hdis⟩ := ih (i := i + 1) (by omega) (by omega) hset
          (fun j hj => by rw [setCutoff_other (by omega), habove j (by omega)])
          (fun _ _ => by
            rw [Nat.add_sub_cancel, setCutoff_same]
            exact hw.2.trans high_le_size)
          (fun _ hb => absurd hboth (by rw [Nat.add_sub_cancel] at hb; exact hb))
        refine ⟨hval, fun j hj2 hjlt hj hl => hdis j hj2 hjlt hj ?_⟩
        by_cases heq : j = i
        · rw [heq] at hl ⊢
          obtain ⟨hn, hdiff⟩ := hmark (hcut ▸ hl)
          rw [setCutoff_same]
          exact le_hillclimb (le_high hv h2 hlt hn hl) hdiff
        · rw [setCutoff_other heq]
          exact hl
      · simp only [if_neg hboth]
        exact ih (by omega) (by omega) hv (fun j hj => habove j (by omega))
          (fun _ hb => absurd (by rw [Nat.add_sub_cancel] at hb; exact hb) hboth)
          (fun _ _ => by rw [Nat.add_sub_cancel]; exact hcut)

theorem hillclimb_valid (hs : HillclimbSafe p1 p2 n l) (hv : l.Valid rules) :
    (Selector.hillclimb p1 p2 n l).Valid rules ∧
      ∀ j, 2 ≤ j → j < maxLevels → BothDisabled p1 p2 j → disabled ≤ l.cutoff j →
        disabled ≤ (Selector.hillclimb p1 p2 n l).cutoff j :=
  hillclimbFrom_valid hs (by decide) (le_refl 2) hv (fun _ _ => rfl)
    (fun h => absurd h (by omega)) (fun h => absurd h (by omega))

/-! ## Tunables -/

/-- Every entry is in the range; there are 32 of them in an array. -/
def Tunable.Within (kind : Kind) (t : Tunable) (v : Values) : Prop :=
  match kind with
  | .synthesizedFunction => ∀ i < 32, t.min ≤ v.entry i ∧ v.entry i ≤ t.max
  | _ => t.min ≤ v.value ∧ v.value ≤ t.max

/-- The input size is not below the range of a cutoff, a uniform draw is safe, and the range of an
    array contains zero. -/
def Tunable.RandomizeSafe (kind : Kind) (t : Tunable) (n : ℤ) (o : Outcomes) : Prop :=
  match kind with
  | .cutoff => t.min ≤ n
  | .switch => UniformSafe t.max (uniform t.min (t.max + 1) (o.uniform 0))
  | .synthesizedFunction => t.min ≤ 0 ∧ 0 ≤ t.max
  | .ignore => True

def Tunable.MutateSafe (kind : Kind) (t : Tunable) (n : ℤ) (o : Outcomes) : Prop :=
  match kind with
  | .cutoff => LognormalSafe t.min (Min.min n t.max) (o.uniform 0)
  | kind => t.RandomizeSafe kind n o

variable {kind : Kind} {t : Tunable} {u : Values}

/-- A draw scaled down is nearer to zero. -/
theorem scaled_within {x : ℤ} {c : ℚ} (h0 : t.min ≤ 0) (h0' : 0 ≤ t.max)
    (hx : t.min ≤ x ∧ x ≤ t.max) (hc0 : 0 ≤ c) (hc1 : c ≤ 1) :
    t.min ≤ truncate (x * c) ∧ truncate (x * c) ≤ t.max := by
  have hlo : (t.min : ℚ) ≤ x := by exact_mod_cast hx.1
  have hhi : (x : ℚ) ≤ t.max := by exact_mod_cast hx.2
  have hmin : (t.min : ℚ) ≤ 0 := by exact_mod_cast h0
  have hmax : (0 : ℚ) ≤ t.max := by exact_mod_cast h0'
  constructor
  · have hle : (t.min : ℚ) ≤ x * c := by
      calc (t.min : ℚ) ≤ t.min * c := le_mul_of_le_one_right hmin hc1
        _ ≤ x * c := mul_le_mul_of_nonneg_right hlo hc0
    calc t.min = truncate t.min := (truncate_intCast _).symm
      _ ≤ _ := truncate_mono hle
  · have hle : (x : ℚ) * c ≤ t.max := by
      calc (x : ℚ) * c ≤ t.max * c := mul_le_mul_of_nonneg_right hhi hc0
        _ ≤ t.max := mul_le_of_le_one_right hmax hc1
    calc _ ≤ truncate t.max := truncate_mono hle
      _ = t.max := truncate_intCast _

theorem tunable_randomize_within (hs : t.RandomizeSafe kind n o) (hu : t.Within kind u) :
    t.Within kind (t.randomize n o u kind) := by
  cases kind with
  | cutoff =>
      have hw := rndLoguniform_within (le_min hs t.min_le) (o.log 0)
      exact ⟨hw.1, hw.2.trans (min_le_right _ _)⟩
  | switch => exact rndUniform_within t.min_le hs
  | synthesizedFunction =>
      intro i hi
      have hx := rndLoguniform_within t.min_le (o.log 0)
      have hc : (2 : ℚ) ^ i ≤ 2 ^ 32 := pow_le_pow_right₀ (by norm_num) hi.le
      have hscale : ∀ x : ℚ, x / 2 ^ 32 * 2 ^ i = x * (2 ^ i / 2 ^ 32) := fun x => by ring
      show t.min ≤ truncate (_ / 2 ^ 32 * 2 ^ i) ∧ truncate (_ / 2 ^ 32 * 2 ^ i) ≤ t.max
      rw [hscale]
      exact scaled_within hs.1 hs.2 hx (by positivity) ((div_le_one (by positivity)).mpr hc)
  | ignore => exact hu

theorem tunable_mutate_within (hs : t.MutateSafe kind n o) (hu : t.Within kind u) :
    t.Within kind (t.mutate n o u kind) := by
  cases kind with
  | cutoff =>
      have hw := rndLognormal_within u.value (o.normal 0) hs
      exact ⟨hw.1, hw.2.trans (min_le_right _ _)⟩
  | switch | synthesizedFunction | ignore => exact tunable_randomize_within (n := n) (o := o) hs hu

theorem tunable_hillclimb_within (u₁ u₂ : Values) (hu : t.Within kind u) :
    t.Within kind (t.hillclimb u u₁ u₂ kind) := by
  cases kind with
  | switch => exact hu
  | synthesizedFunction => exact fun i _ => hillclimb_within _ _ t.min_le
  | cutoff | ignore => exact hillclimb_within _ _ t.min_le

end PbHighLevelConfig
