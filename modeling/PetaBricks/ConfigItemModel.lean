import PetaBricks.MixedRadixProofs

/-! # `ConfigItem` — variables with a range, and the number of their choices

    Template arguments and the variables of `duplicate` are such items.  All values are `int`s,
    and an operation on them that leaves the range of `int` has no result. -/

namespace PbConfigItem

/-- The result of an operation on `int`s. -/
def int (n : ℤ) : Option ℤ := if -2 ^ 31 ≤ n ∧ n < 2 ^ 31 then some n else none

theorem int_eq_some {n m : ℤ} : int n = some m ↔ (-2 ^ 31 ≤ n ∧ n < 2 ^ 31) ∧ n = m := by
  rw [int]
  split
  · rename_i h
    exact ⟨fun heq => ⟨h, Option.some.inj heq⟩, fun heq => congrArg some heq.2⟩
  · rename_i h
    exact ⟨fun heq => (by cases heq), fun heq => absurd heq.1 h⟩

theorem int_of_large {n : ℤ} (h : ¬ n < 2 ^ 31) : int n = none := if_neg fun hif => h hif.2

theorem int_of_nonneg {n : ℤ} (h0 : 0 ≤ n) (h : n < 2 ^ 31) : int n = some n :=
  int_eq_some.mpr ⟨⟨by omega, h⟩, rfl⟩

structure ConfigItem where
  initial : ℤ
  min : ℤ
  max : ℤ

namespace ConfigItem

variable (v : ConfigItem)

/-- `range()`. -/
def range : Option ℤ := (int (v.max - v.min)).bind fun d => int (d + 1)

/-- The number of values. -/
def width : ℤ := v.max - v.min + 1

variable {v}

theorem range_eq (h : v.min ≤ v.max) : v.range = int v.width := by
  rw [range, width]
  by_cases hlt : v.max - v.min < 2 ^ 31
  · rw [int_of_nonneg (by omega) hlt]
    rfl
  · rw [int_of_large hlt, int_of_large (by omega)]
    rfl

theorem width_pos (h : v.min ≤ v.max) : 1 ≤ v.width := by
  rw [width]
  omega

end ConfigItem

/-- The loops of `tmplChoiceCount` and `duplicateCount`. -/
def choiceCount : List ConfigItem → ℤ → Option ℤ
  | [], c => some c
  | v :: vs, c => v.range.bind fun r => (int (c * r)).bind (choiceCount vs)

def widths (vs : List ConfigItem) : List ℤ := vs.map ConfigItem.width

theorem one_le_prod {bs : List ℤ} (h : ∀ b ∈ bs, 1 ≤ b) : 1 ≤ bs.prod := by
  induction bs with
  | nil => exact le_rfl
  | cons b bs ih =>
      rw [List.prod_cons]
      have hb := h b List.mem_cons_self
      have hrest := ih fun c hc => h c (List.mem_cons_of_mem _ hc)
      nlinarith

/-- A base is not greater than the product. -/
theorem le_prod {bs : List ℤ} (h : ∀ b ∈ bs, 1 ≤ b) {b : ℤ} (hb : b ∈ bs) : b ≤ bs.prod := by
  induction bs with
  | nil => cases hb
  | cons c bs ih =>
      rw [List.prod_cons]
      have hc := h c List.mem_cons_self
      have hrest : ∀ d ∈ bs, 1 ≤ d := fun d hd => h d (List.mem_cons_of_mem _ hd)
      have hprod := one_le_prod hrest
      rcases List.mem_cons.mp hb with rfl | hb
      · nlinarith
      · have hle := ih hrest hb
        nlinarith

/-- Every item has a value. -/
def Ranged (vs : List ConfigItem) : Prop := ∀ v ∈ vs, v.min ≤ v.max

variable {vs : List ConfigItem}

theorem one_le_widths (h : Ranged vs) : ∀ b ∈ widths vs, 1 ≤ b := by
  intro b hb
  obtain ⟨v, hv, rfl⟩ := List.mem_map.mp hb
  exact ConfigItem.width_pos (h v hv)

theorem Ranged.tail {v : ConfigItem} (h : Ranged (v :: vs)) : Ranged vs :=
  fun u hu => h u (List.mem_cons_of_mem _ hu)

/-- **THE COUNT** is the product of the ranges, where that is an `int`. -/
theorem choiceCount_eq (h : Ranged vs) {c : ℤ} (hc : 1 ≤ c) (hlt : c < 2 ^ 31) :
    choiceCount vs c = int (c * (widths vs).prod) := by
  induction vs generalizing c with
  | nil => rw [widths, List.map_nil, List.prod_nil, mul_one, int_of_nonneg (by omega) hlt, choiceCount]
  | cons v vs ih =>
      have hw := ConfigItem.width_pos (h v List.mem_cons_self)
      have hprod := one_le_prod (one_le_widths h.tail)
      rw [choiceCount, ConfigItem.range_eq (h v List.mem_cons_self), widths, List.map_cons,
        List.prod_cons, ← mul_assoc]
      by_cases hsmall : c * v.width < 2 ^ 31
      · have hwlt : v.width < 2 ^ 31 := by nlinarith
        have hpos : 1 ≤ c * v.width := by nlinarith
        rw [int_of_nonneg (by omega) hwlt, Option.bind_some, int_of_nonneg (by omega) hsmall,
          Option.bind_some, ih h.tail hpos hsmall]
        rfl
      · have hbig : ¬ c * v.width * (widths vs).prod < 2 ^ 31 := by nlinarith
        rw [← widths, int_of_large hbig]
        by_cases hwlt : v.width < 2 ^ 31
        · rw [int_of_nonneg (by omega) hwlt, Option.bind_some, int_of_large hsmall]
          rfl
        · rw [int_of_large hwlt]
          rfl

/-- A value of each item, from the number of a choice. -/
def valuesOf (vs : List ConfigItem) (ds : List ℤ) : List ℤ :=
  vs.zipWith (fun v d => v.min + d) ds

end PbConfigItem
