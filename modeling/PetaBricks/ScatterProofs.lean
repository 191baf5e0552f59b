import Mathlib.Algebra.Order.Ring.Int
import Mathlib.Data.List.Nodup

/-! # Scatter — writes to distinct places of an array

    Each place that is written has its element afterwards, in whatever order the writes are done;
    the others have what they had. -/

namespace PbScatter

variable {E : Type}

/-- The element at a place. -/
def get (s : List E) (p : ℤ) : Option E := if 0 ≤ p then s[p.toNat]? else none

/-- The array with an element at a place. -/
def put (s : List E) (p : ℤ) (x : E) : Option (List E) :=
  if 0 ≤ p ∧ p < s.length then some (s.set p.toNat x) else none

/-- Writes, one after the other. -/
def putAll : List (ℤ × E) → List E → Option (List E)
  | [], s => some s
  | w :: ws, s => (put s w.1 w.2).bind (putAll ws)

theorem get_eq_some {s : List E} {p : ℤ} (h : 0 ≤ p ∧ p < s.length) : ∃ x, get s p = some x := by
  have hlt : p.toNat < s.length := by omega
  exact ⟨s[p.toNat], by rw [get, if_pos h.1, List.getElem?_eq_getElem hlt]⟩

theorem get_eq_none {s : List E} {p : ℤ} (h : ¬ (0 ≤ p ∧ p < s.length)) : get s p = none := by
  rw [get]
  split
  · exact List.getElem?_eq_none (by omega)
  · rfl

/-- Arrays with the same elements. -/
theorem ext_get {s s' : List E} (hlen : s.length = s'.length)
    (h : ∀ p : ℤ, 0 ≤ p → p < s.length → get s p = get s' p) : s = s' := by
  refine List.ext_getElem? fun i => ?_
  by_cases hi : i < s.length
  · have hget := h i (Int.natCast_nonneg i) (by omega)
    rwa [get, get, if_pos (Int.natCast_nonneg i), if_pos (Int.natCast_nonneg i),
      Int.toNat_natCast] at hget
  · rw [List.getElem?_eq_none (by omega), List.getElem?_eq_none (by omega)]

/-- One write. -/
theorem put_spec {s : List E} {p : ℤ} (h : 0 ≤ p ∧ p < s.length) (x : E) :
    ∃ s', put s p x = some s' ∧ s'.length = s.length ∧ get s' p = some x ∧
      ∀ q, q ≠ p → get s' q = get s q := by
  have hlt : p.toNat < s.length := by omega
  refine ⟨s.set p.toNat x, if_pos h, List.length_set, ?_, fun q hq => ?_⟩
  · rw [get, if_pos h.1, List.getElem?_set_self hlt]
  · rw [get, get]
    split
    · rw [List.getElem?_set_ne (by omega)]
    · rfl

/-- **WRITES TO DISTINCT PLACES.** -/
theorem putAll_spec (ws : List (ℤ × E)) (s : List E)
    (hin : ∀ w ∈ ws, 0 ≤ w.1 ∧ w.1 < s.length) (hnodup : (ws.map Prod.fst).Nodup) :
    ∃ s', putAll ws s = some s' ∧ s'.length = s.length ∧ (∀ w ∈ ws, get s' w.1 = some w.2) ∧
      ∀ q, q ∉ ws.map Prod.fst → get s' q = get s q := by
  induction ws generalizing s with
  | nil => exact ⟨s, rfl, rfl, fun w hw => absurd hw List.not_mem_nil, fun _ _ => rfl⟩
  | cons w ws ih =>
      rw [List.map_cons, List.nodup_cons] at hnodup
      obtain ⟨s₁, hput, hlen₁, hself, hother⟩ := put_spec (hin w List.mem_cons_self) w.2
      obtain ⟨s₂, hrest, hlen₂, hwritten, hkept⟩ :=
        ih s₁ (fun v hv => by rw [hlen₁]; exact hin v (List.mem_cons_of_mem w hv)) hnodup.2
      refine ⟨s₂, by rw [putAll, hput, Option.bind_some, hrest], hlen₂.trans hlen₁, ?_, ?_⟩
      · intro v hv
        rcases List.mem_cons.mp hv with rfl | hv
        · rw [hkept _ hnodup.1, hself]
        · exact hwritten v hv
      · intro q hq
        rw [List.map_cons, List.mem_cons, not_or] at hq
        rw [hkept q hq.2, hother q hq.1]

end PbScatter
