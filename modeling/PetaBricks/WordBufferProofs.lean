import Mathlib.Data.List.Basic

/-! # Buffers — memory with holes

    A buffer has a length; each of its words holds a value or was never written.  A write has no
    value where it goes past the end (`copyTo_eq_none`).

    A program that fills a buffer from the front, and overwrites what it has filled, keeps it
    filled with a list of values (`Holds`): reads then read the list, writes overwrite it, and the
    written words are as many as the list is long. -/

namespace PbWordBuffer

variable {α : Type}

abbrev Buffer (α : Type) := List (Option α)

/-- A buffer nothing was written to. -/
def fresh (n : ℕ) : Buffer α := List.replicate n none

def load (m : Buffer α) (k : ℕ) : Option α := m[k]?.join

/-- The words `xs` from word `k` on. -/
def copyTo (m : Buffer α) (k : ℕ) (xs : Buffer α) : Option (Buffer α) :=
  if k + xs.length ≤ m.length then some (m.take k ++ xs ++ m.drop (k + xs.length)) else none

/-- The first `n` words. -/
def copyFrom (m : Buffer α) (k n : ℕ) : Option (Buffer α) :=
  if k + n ≤ m.length then some ((m.drop k).take n) else none

/-- How many words were written. -/
def written (m : Buffer α) : ℕ := m.countP Option.isSome

/-- A list with other values from `k` on. -/
def overwrite (ws : List α) (k : ℕ) (xs : List α) : List α :=
  ws.take k ++ xs ++ ws.drop (k + xs.length)

/-- The buffer is filled with these values, and the rest was not written. -/
structure Holds (m : Buffer α) (ws : List α) : Prop where
  le : ws.length ≤ m.length
  eq : m = ws.map some ++ fresh (m.length - ws.length)

/-! ## Lists -/

section Overwrite

variable {ws xs : List α} {k : ℕ}

theorem length_overwrite (h : k ≤ ws.length) :
    (overwrite ws k xs).length = max ws.length (k + xs.length) := by
  rw [overwrite, List.length_append, List.length_append, List.length_take, List.length_drop]
  omega

theorem length_overwrite_of_le (h : k + xs.length ≤ ws.length) :
    (overwrite ws k xs).length = ws.length := by
  rw [length_overwrite (by omega), Nat.max_eq_left h]

theorem getElem?_overwrite (h : k ≤ ws.length) {j : ℕ} (hj : j < k) :
    (overwrite ws k xs)[j]? = ws[j]? := by
  rw [overwrite, List.append_assoc, List.getElem?_append_left, List.getElem?_take_of_lt hj]
  rw [List.length_take]
  omega

theorem getElem?_overwrite_at (h : k ≤ ws.length) {j : ℕ} (hj : j < xs.length) :
    (overwrite ws k xs)[k + j]? = xs[j]? := by
  have htake : (ws.take k).length = k := by
    rw [List.length_take, Nat.min_eq_left h]
  rw [overwrite, List.append_assoc, List.getElem?_append_right (by omega), htake,
    Nat.add_sub_cancel_left, List.getElem?_append_left hj]

theorem overwrite_length (ws xs : List α) : overwrite ws ws.length xs = ws ++ xs := by
  rw [overwrite, List.take_length, List.drop_eq_nil_of_le (Nat.le_add_right _ _), List.append_nil]

end Overwrite

/-! ## Buffers -/

section Buffers

variable {m : Buffer α} {ws xs : List α} {k n : ℕ}

theorem copyTo_eq_none {xs : Buffer α} (h : m.length < k + xs.length) : copyTo m k xs = none :=
  if_neg (Nat.not_le.mpr h)

theorem length_fresh (n : ℕ) : (fresh n : Buffer α).length = n := List.length_replicate

theorem holds_fresh (n : ℕ) : Holds (fresh n : Buffer α) [] := by
  refine ⟨Nat.zero_le _, ?_⟩
  rw [length_fresh]
  rfl

theorem Holds.load (h : Holds m ws) (k : ℕ) : load m k = ws[k]? := by
  rw [PbWordBuffer.load, h.eq]
  by_cases hk : k < ws.length
  · rw [List.getElem?_append_left (by rw [List.length_map]; exact hk), List.getElem?_map,
      List.getElem?_eq_getElem hk]
    rfl
  · have hnone : ws[k]? = none := List.getElem?_eq_none (Nat.not_lt.mp hk)
    rw [List.getElem?_append_right (by rw [List.length_map]; exact Nat.not_lt.mp hk), fresh,
      List.getElem?_replicate, hnone]
    split <;> rfl

theorem Holds.written (h : Holds m ws) : written m = ws.length := by
  have hall : (ws.map some).countP Option.isSome = ws.length := by
    rw [List.countP_map]
    exact List.countP_eq_length.mpr fun _ _ => rfl
  have hnone : (fresh (m.length - ws.length) : Buffer α).countP Option.isSome = 0 := by
    refine List.countP_eq_zero.mpr fun x hx => ?_
    rw [List.eq_of_mem_replicate hx]
    exact Bool.false_ne_true
  rw [PbWordBuffer.written, h.eq, List.countP_append, hall, hnone, Nat.add_zero]

/-- **WRITES** in the filled part, or at its end. -/
theorem Holds.copyTo (h : Holds m ws) (hk : k ≤ ws.length) (hroom : k + xs.length ≤ m.length) :
    ∃ m', copyTo m k (xs.map some) = some m' ∧ Holds m' (overwrite ws k xs) ∧
      m'.length = m.length := by
  have hlen : (m.take k ++ xs.map some ++ m.drop (k + (xs.map some).length)).length =
      m.length := by
    rw [List.length_append, List.length_append, List.length_take, List.length_map,
      List.length_drop]
    omega
  refine ⟨_, if_pos (by rw [List.length_map]; exact hroom), ⟨?_, ?_⟩, hlen⟩
  · rw [hlen, length_overwrite hk]
    exact Nat.max_le.mpr ⟨h.le, hroom⟩
  · have htake : m.take k = (ws.take k).map some := by
      rw [h.eq, List.take_append_of_le_length (by rw [List.length_map]; exact hk), List.map_take]
    have hdrop : m.drop (k + xs.length) =
        (ws.drop (k + xs.length)).map some ++
          fresh (m.length - max ws.length (k + xs.length)) := by
      conv_lhs => rw [h.eq]
      rw [List.drop_append, List.map_drop, List.length_map, fresh, List.drop_replicate, fresh]
      congr 2
      omega
    rw [hlen, List.length_map, htake, hdrop, length_overwrite hk, overwrite, List.map_append,
      List.map_append, List.append_assoc, List.append_assoc, List.append_assoc]

theorem Holds.append (h : Holds m ws) (hroom : ws.length + xs.length ≤ m.length) :
    ∃ m', PbWordBuffer.copyTo m ws.length (xs.map some) = some m' ∧ Holds m' (ws ++ xs) ∧
      m'.length = m.length := by
  have hcopy := h.copyTo (Nat.le_refl _) hroom
  rwa [overwrite_length] at hcopy

/-- A part of what is filled. -/
theorem Holds.copyFrom (h : Holds m ws) (hn : k + n ≤ ws.length) :
    copyFrom m k n = some (((ws.drop k).take n).map some) := by
  rw [PbWordBuffer.copyFrom, if_pos (Nat.le_trans hn h.le), h.eq,
    List.drop_append_of_le_length (by rw [List.length_map]; omega),
    List.take_append_of_le_length (by rw [List.length_drop, List.length_map]; omega),
    List.map_take, List.map_drop]

/-- All that is filled, and more. -/
theorem Holds.take (h : Holds m ws) (hn : ws.length ≤ n) (hm : n ≤ m.length) :
    Holds (m.take n) ws := by
  have hlen : (m.take n).length = n := by
    rw [List.length_take, Nat.min_eq_left hm]
  refine ⟨hlen.symm ▸ hn, ?_⟩
  rw [hlen]
  conv_lhs => rw [h.eq]
  rw [List.take_append, List.take_of_length_le (by rw [List.length_map]; exact hn),
    List.length_map, fresh, List.take_replicate, fresh]
  congr 2
  omega

end Buffers

end PbWordBuffer
