import Mathlib.Data.List.Nodup
import PetaBricks.BoxTraversalProofs
import PetaBricks.DataHostsModel

/-! # Part traversal — a box by its pieces

    The parts of a box of a split matrix are a box of part numbers, and `incPartCoord` goes
    through them as `incCoordWithBound` goes through numbers (`doWhile_parts`).  The coordinates
    of the box are those of its pieces in the parts (`perm_parts`), and a part's count is the
    size of its piece (`partCount_eq`). -/

namespace PbDataHosts

open PbRegionMatrix PbRegionSplit
open PbMatrixRegion (doWhile incFrom incFrom_cons incCoordWithBound InBox Proper boxList boxSize numberOf
  incFrom_next doWhile_box mem_boxList nodup_boxList boxSize_cons)

/-! ## Corners -/

/-- The corners of a box, in order. -/
inductive Corners : List SplitDim → List ℤ → List ℤ → Prop
  | nil : Corners [] [] []
  | cons {d : SplitDim} {b e : ℤ} {dims : List SplitDim} {bs es : List ℤ} (hb : 0 ≤ b ∧ b ≤ e)
      (h : Corners dims bs es) : Corners (d :: dims) (b :: bs) (e :: es)

/-- The last coordinate in each dimension, or the first if there is none. -/
def lastCorner (bs es : List ℤ) : List ℤ := List.zipWith (fun b e => max b (e - 1)) bs es

/-- Where the parts with these numbers begin. -/
def scale (dims : List SplitDim) (qs : List ℤ) : List ℤ :=
  List.zipWith (fun d q => d.splitSize * q) dims qs

/-- The piece of a box in the part with these numbers, by its corners. -/
def pieceBegins : List SplitDim → List ℤ → List ℤ → List ℤ
  | d :: dims, b :: bs, q :: qs => dataBegin b (d.splitSize * q) :: pieceBegins dims bs qs
  | _, _, _ => []

def pieceEnds : List SplitDim → List ℤ → List ℤ → List ℤ
  | d :: dims, e :: es, q :: qs => dataEnd d e (d.splitSize * q) :: pieceEnds dims es qs
  | _, _, _ => []

/-- The part numbers of a box, from the first on and below the stop. -/
def firstParts (dims : List SplitDim) (bs : List ℤ) : List ℤ := quotients dims bs

def stopParts (dims : List SplitDim) (bs es : List ℤ) : List ℤ :=
  (quotients dims (lastCorner bs es)).map (· + 1)

section Cons

variable (d : SplitDim) (dims : List SplitDim) (b e q : ℤ) (bs es qs : List ℤ)

theorem scale_cons : scale (d :: dims) (q :: qs) = d.splitSize * q :: scale dims qs := rfl

theorem firstParts_cons :
    firstParts (d :: dims) (b :: bs) = b.tdiv d.splitSize :: firstParts dims bs := rfl

theorem stopParts_cons : stopParts (d :: dims) (b :: bs) (e :: es) =
    ((max b (e - 1)).tdiv d.splitSize + 1) :: stopParts dims bs es := rfl

theorem quotients_cons (x : ℤ) (c : List ℤ) :
    quotients (d :: dims) (x :: c) = x.tdiv d.splitSize :: quotients dims c := rfl

theorem pieceBegins_cons : pieceBegins (d :: dims) (b :: bs) (q :: qs) =
    dataBegin b (d.splitSize * q) :: pieceBegins dims bs qs := rfl

theorem pieceEnds_cons : pieceEnds (d :: dims) (e :: es) (q :: qs) =
    dataEnd d e (d.splitSize * q) :: pieceEnds dims es qs := rfl

end Cons

/-! ## One dimension -/

section Dim

variable (d : SplitDim) {b e q x : ℤ}

theorem tdiv_eq (hx : 0 ≤ x) : x.tdiv d.splitSize = q ↔
    d.splitSize * q ≤ x ∧ x < d.splitSize * q + d.splitSize := by
  have hpos : 0 < d.splitSize := d.splitSize_pos
  rw [Int.tdiv_eq_ediv_of_nonneg hx, Int.ediv_eq_iff_of_pos hpos]
  constructor
  · rintro ⟨hlo, hhi⟩
    constructor <;> nlinarith
  · rintro ⟨hlo, hhi⟩
    constructor <;> nlinarith

theorem tdiv_bounds (hx : 0 ≤ x) :
    d.splitSize * x.tdiv d.splitSize ≤ x ∧ x < d.splitSize * x.tdiv d.splitSize + d.splitSize :=
  (tdiv_eq d hx).mp rfl

theorem scaled_le (h : q < x.tdiv d.splitSize) (hx : 0 ≤ x) :
    d.splitSize * q + d.splitSize ≤ x := by
  have hpos : 0 < d.splitSize := d.splitSize_pos
  have hbounds := tdiv_bounds d hx
  nlinarith

theorem le_scaled (h : x.tdiv d.splitSize ≤ q) (hx : 0 ≤ x) :
    x < d.splitSize * q + d.splitSize := by
  have hpos : 0 < d.splitSize := d.splitSize_pos
  have hbounds := tdiv_bounds d hx
  nlinarith

theorem dataBegin_eq : (dataBegin b x : ℤ) = max b x := by
  show (if x < b then b else x : ℤ) = max b x
  split <;> omega

theorem dataEnd_eq : (dataEnd d e x : ℤ) = min e (x + d.splitSize) := by
  show (if x + d.splitSize > e then e else x + d.splitSize : ℤ) = min e (x + d.splitSize)
  split <;> omega

/-- The next part is past the end just after the last one. -/
theorem past_iff (hb : 0 ≤ b ∧ b ≤ e) (hq : b.tdiv d.splitSize ≤ q) :
    d.splitSize * q + d.splitSize ≥ e ↔ q + 1 ≥ (max b (e - 1)).tdiv d.splitSize + 1 := by
  have hpos : 0 < d.splitSize := d.splitSize_pos
  have hmax : 0 ≤ max b (e - 1) := le_max_of_le_left hb.1
  rw [ge_iff_le, ge_iff_le, Int.add_le_add_iff_right]
  constructor
  · intro hpast
    by_contra hlt
    have hscaled := scaled_le d (Int.not_le.mp hlt) hmax
    have hfirst := le_scaled d hq hb.1
    omega
  · intro hle
    have hscaled := le_scaled d hle hmax
    have := le_max_right b (e - 1)
    omega

/-- A coordinate of a box is one of the piece in its part. -/
theorem dim_piece (hb : 0 ≤ b) (hx : b ≤ x ∧ x < e) :
    (b.tdiv d.splitSize ≤ x.tdiv d.splitSize ∧
        x.tdiv d.splitSize < (max b (e - 1)).tdiv d.splitSize + 1) ∧
      dataBegin b (d.splitSize * x.tdiv d.splitSize) ≤ x ∧
        x < dataEnd d e (d.splitSize * x.tdiv d.splitSize) := by
  have hx0 : 0 ≤ x := by omega
  have hbounds := tdiv_bounds d hx0
  have hmax : x ≤ max b (e - 1) := le_max_of_le_right (by omega)
  refine ⟨⟨?_, Int.lt_add_one_of_le ?_⟩, ?_, ?_⟩
  · rw [Int.tdiv_eq_ediv_of_nonneg hb, Int.tdiv_eq_ediv_of_nonneg hx0]
    exact Int.ediv_le_ediv d.splitSize_pos hx.1
  · rw [Int.tdiv_eq_ediv_of_nonneg hx0, Int.tdiv_eq_ediv_of_nonneg (hx0.trans hmax)]
    exact Int.ediv_le_ediv d.splitSize_pos hmax
  · rw [dataBegin_eq]
    exact max_le hx.1 hbounds.1
  · rw [dataEnd_eq]
    exact lt_min hx.2 hbounds.2

/-- A coordinate of a piece is one of the box, in its part. -/
theorem dim_of_piece (hb : 0 ≤ b)
    (hx : dataBegin b (d.splitSize * q) ≤ x ∧ x < dataEnd d e (d.splitSize * q)) :
    (b ≤ x ∧ x < e) ∧ x.tdiv d.splitSize = q := by
  rw [dataBegin_eq, dataEnd_eq, max_le_iff, lt_min_iff] at hx
  obtain ⟨⟨hbx, hqx⟩, hxe, hxq⟩ := hx
  exact ⟨⟨hbx, hxe⟩, (tdiv_eq d (hb.trans hbx)).mpr ⟨hqx, hxq⟩⟩

/-- The pieces of a box that is not empty are not. -/
theorem dim_piece_lt (hb : 0 ≤ b) (he : b < e) (hq : b.tdiv d.splitSize ≤ q ∧
    q < (max b (e - 1)).tdiv d.splitSize + 1) :
    dataBegin b (d.splitSize * q) < dataEnd d e (d.splitSize * q) := by
  have hpos : 0 < d.splitSize := d.splitSize_pos
  have hfirst := le_scaled d hq.1 hb
  have hmax : max b (e - 1) = e - 1 := max_eq_right (by omega)
  have hlast : d.splitSize * q ≤ e - 1 := by
    have hbounds := tdiv_bounds d (by omega : 0 ≤ e - 1)
    have hle : q ≤ (e - 1).tdiv d.splitSize := by
      rw [hmax] at hq
      omega
    nlinarith
  rw [dataBegin_eq, dataEnd_eq]
  exact max_lt (lt_min he hfirst) (lt_min (Int.lt_of_le_sub_one hlast) (Int.lt_add_of_pos_right _ hpos))

/-- Nothing of an empty dimension is in a part. -/
theorem dim_piece_empty (hb : 0 ≤ b) (hq : b.tdiv d.splitSize ≤ q ∧
    q < (max b (b - 1)).tdiv d.splitSize + 1) :
    dataEnd d b (d.splitSize * q) - dataBegin b (d.splitSize * q) = 0 := by
  have hmax : max b (b - 1) = b := max_eq_left (by omega)
  rw [hmax] at hq
  obtain rfl : q = b.tdiv d.splitSize := by omega
  have hbounds := tdiv_bounds d hb
  have hend : (dataEnd d b (d.splitSize * b.tdiv d.splitSize) : ℤ) = b := by
    rw [dataEnd_eq, min_eq_left hbounds.2.le]
  have hbegin : (dataBegin b (d.splitSize * b.tdiv d.splitSize) : ℤ) = b := by
    rw [dataBegin_eq, max_eq_left hbounds.1]
  exact (congrArg₂ (· - ·) hend hbegin).trans (sub_self b)

end Dim

/-! ## The traversal of the parts -/

theorem incPartFrom_cons (i : ℤ) (d : SplitDim) (dims : List SplitDim) (lo hi x x₂ : ℤ)
    (bs es c : List ℤ) :
    incPartFrom i (d :: dims) (lo :: bs) (hi :: es) (x :: x₂ :: c) =
      if x + d.splitSize ≥ hi then
        (lo :: (incPartFrom (i + 1) dims bs es (x₂ :: c)).1,
          (incPartFrom (i + 1) dims bs es (x₂ :: c)).2)
      else ((x + d.splitSize) :: x₂ :: c, i) := by
  cases dims <;> cases bs <;> cases es <;> rfl

section Parts

variable {dims : List SplitDim} {bs es qs x : List ℤ}

theorem Corners.proper (h : Corners dims bs es) :
    Proper (firstParts dims bs) (stopParts dims bs es) := by
  induction h with
  | nil => exact .nil
  | @cons d b e dims bs es hb h ih =>
      rw [firstParts_cons, stopParts_cons]
      refine .cons (Int.lt_add_one_of_le ?_) ih
      rw [Int.tdiv_eq_ediv_of_nonneg hb.1, Int.tdiv_eq_ediv_of_nonneg (le_max_of_le_left hb.1)]
      exact Int.ediv_le_ediv d.splitSize_pos (le_max_left b (e - 1))

/-- An increment of a part's corner is one of its numbers. -/
theorem incPart_eq (h : Corners dims bs es) (hne : dims ≠ [])
    (hq : InBox (firstParts dims bs) (stopParts dims bs es) qs) (i : ℤ) :
    incPartFrom i dims (scale dims (firstParts dims bs)) es (scale dims qs) =
      (scale dims (incFrom i (firstParts dims bs) (stopParts dims bs es) qs).1,
        (incFrom i (firstParts dims bs) (stopParts dims bs es) qs).2) := by
  induction h generalizing qs i with
  | nil => exact absurd rfl hne
  | @cons d b e dims bs es hb h ih =>
      rw [firstParts_cons, stopParts_cons] at hq ⊢
      cases hq with
      | @cons _ _ q _ _ qs hx hq =>
          have hpast := past_iff d hb hx.1
          have hnext : d.splitSize * (q + 1) = d.splitSize * q + d.splitSize := by
            rw [Int.mul_add, Int.mul_one]
          rw [scale_cons, scale_cons]
          generalize b.tdiv d.splitSize = first at *
          generalize (max b (e - 1)).tdiv d.splitSize + 1 = stop at *
          cases h with
          | nil =>
              -- the last dimension
              cases hq
              have hpart : incPartFrom i [d] [d.splitSize * first] [e] [d.splitSize * q] =
                  if d.splitSize * q + d.splitSize < e then ([d.splitSize * q + d.splitSize], i)
                  else ([d.splitSize * q + d.splitSize], -1) := rfl
              have hnumber : incFrom i [first] [stop] [q] =
                  if q + 1 ≥ stop then ([q + 1], -1) else ([q + 1], i) := rfl
              show incPartFrom i [d] [d.splitSize * first] [e] [d.splitSize * q] =
                (scale [d] (incFrom i [first] [stop] [q]).1, (incFrom i [first] [stop] [q]).2)
              rw [hpart, hnumber]
              by_cases hend : q + 1 ≥ stop
              · rw [if_neg (Int.not_lt.mpr (hpast.mpr hend)), if_pos hend, scale_cons, hnext]
                rfl
              · rw [if_pos (Int.not_le.mp (mt hpast.mp hend)), if_neg hend, scale_cons, hnext]
                rfl
          | @cons d₂ b₂ e₂ dims bs es hb₂ h =>
              have ih := ih (List.cons_ne_nil _ _) hq (i + 1)
              rw [firstParts_cons, stopParts_cons] at ih hq ⊢
              cases hq with
              | @cons _ _ q₂ _ _ qs hx₂ hq =>
                  rw [scale_cons, scale_cons] at ih ⊢
                  rw [incPartFrom_cons, incFrom_cons, ih]
                  by_cases hend : q + 1 ≥ stop
                  · rw [if_pos (hpast.mpr hend), if_pos hend]
                    rfl
                  · rw [if_neg (mt hpast.mp hend), if_neg hend, scale_cons, scale_cons, hnext]

/-- **THE TRAVERSAL** of the parts of a box, each once. -/
theorem doWhile_parts (h : Corners dims bs es) (hne : dims ≠ [])
    (hq : InBox (firstParts dims bs) (stopParts dims bs es) qs) (n : ℕ) :
    doWhile (incPartFrom 0 dims (scale dims (firstParts dims bs)) es) n (scale dims qs) =
      (doWhile (incCoordWithBound (firstParts dims bs) (stopParts dims bs es)) n qs).map
        (List.map (scale dims)) := by
  induction n generalizing qs with
  | zero => rfl
  | succ n ih =>
      have hinc := incPart_eq h hne hq 0
      have hnext := incFrom_next hq le_rfl
      rw [doWhile, doWhile, hinc, incCoordWithBound]
      by_cases hret : (incFrom 0 (firstParts dims bs) (stopParts dims bs es) qs).2 ≥ 0
      · -- not the end, so the next number is in the box
        have hlt : numberOf (firstParts dims bs) (stopParts dims bs es) qs + 1 <
            boxSize (firstParts dims bs) (stopParts dims bs es) := by
          refine lt_of_le_of_ne (Int.add_one_le_of_lt hq.bounds.2) fun heq => ?_
          rw [hnext.2 heq] at hret
          exact absurd hret (by decide)
        rw [if_pos hret, if_pos hret, ih (hnext.1 hlt).2.1, Option.map_map, Option.map_map]
        rfl
      · rw [if_neg hret, if_neg hret]
        rfl

theorem quotients_scale (h : qs.length = dims.length) : quotients dims (scale dims qs) = qs := by
  induction dims generalizing qs with
  | nil => exact (List.length_eq_zero_iff.mp h).symm
  | cons d dims ih =>
      cases qs with
      | nil => cases h
      | cons q qs =>
          have hne : d.splitSize ≠ 0 := by
            have := d.splitSize_pos
            omega
          rw [scale_cons, quotients_cons, ih (Nat.succ.inj h), Int.mul_tdiv_cancel_left _ hne]

theorem Corners.length_parts (h : Corners dims bs es)
    (hq : InBox (firstParts dims bs) (stopParts dims bs es) qs) : qs.length = dims.length := by
  induction h generalizing qs with
  | nil =>
      cases hq
      rfl
  | cons hb h ih =>
      rw [firstParts_cons, stopParts_cons] at hq
      cases hq with
      | cons hx hq => exact congrArg Nat.succ (ih hq)

theorem mem_piece (h : Corners dims bs es) {c : List ℤ} (hc : InBox bs es c) :
    InBox (firstParts dims bs) (stopParts dims bs es) (quotients dims c) ∧
      InBox (pieceBegins dims bs (quotients dims c)) (pieceEnds dims es (quotients dims c)) c := by
  induction h generalizing c with
  | nil =>
      cases hc
      exact ⟨.nil, .nil⟩
  | @cons d b e dims bs es hb h ih =>
      cases hc with
      | cons hx hc =>
          obtain ⟨hparts, hpiece⟩ := ih hc
          obtain ⟨hq, hpiece₁⟩ := dim_piece d hb.1 hx
          exact ⟨.cons hq hparts, .cons hpiece₁ hpiece⟩

theorem of_mem_piece (h : Corners dims bs es)
    (hq : InBox (firstParts dims bs) (stopParts dims bs es) qs) {c : List ℤ}
    (hc : InBox (pieceBegins dims bs qs) (pieceEnds dims es qs) c) :
    InBox bs es c ∧ quotients dims c = qs := by
  induction h generalizing qs c with
  | nil =>
      cases hq
      cases hc
      exact ⟨.nil, rfl⟩
  | @cons d b e dims bs es hb h ih =>
      rw [firstParts_cons, stopParts_cons] at hq
      cases hq with
      | cons hx hq =>
          cases hc with
          | cons hy hc =>
              obtain ⟨hbox, hquotients⟩ := ih hq hc
              obtain ⟨hbox₁, hquotient⟩ := dim_of_piece d hb.1 hy
              exact ⟨.cons hbox₁ hbox, by rw [quotients_cons, hquotient, hquotients]⟩

theorem piece_proper (h : Corners dims bs es) (hproper : Proper bs es)
    (hq : InBox (firstParts dims bs) (stopParts dims bs es) qs) :
    Proper (pieceBegins dims bs qs) (pieceEnds dims es qs) := by
  induction h generalizing qs with
  | nil =>
      cases hq
      exact .nil
  | @cons d b e dims bs es hb h ih =>
      rw [firstParts_cons, stopParts_cons] at hq
      cases hq with
      | cons hx hq =>
          cases hproper with
          | cons hlt hproper => exact .cons (dim_piece_lt d hb.1 hlt hx) (ih hproper hq)

/-- The count of a part is the size of its piece. -/
theorem partCount_eq (h : Corners dims bs es)
    (hq : InBox (firstParts dims bs) (stopParts dims bs es) qs) :
    partCount dims bs es (scale dims qs) =
      boxSize (pieceBegins dims bs qs) (pieceEnds dims es qs) := by
  induction h generalizing qs with
  | nil =>
      cases hq
      rfl
  | @cons d b e dims bs es hb h ih =>
      rw [firstParts_cons, stopParts_cons] at hq
      cases hq with
      | cons hx hq =>
          rw [scale_cons, partCount, ih hq, pieceBegins_cons, pieceEnds_cons, boxSize_cons]

/-- **PARTS OF A BOX**: its coordinates are those of its pieces. -/
theorem perm_parts (h : Corners dims bs es) (hproper : Proper bs es) :
    (boxList bs es).Perm ((boxList (firstParts dims bs) (stopParts dims bs es)).flatMap fun qs =>
      boxList (pieceBegins dims bs qs) (pieceEnds dims es qs)) := by
  have hparts : ∀ qs, qs ∈ boxList (firstParts dims bs) (stopParts dims bs es) ↔
      InBox (firstParts dims bs) (stopParts dims bs es) qs := fun qs => mem_boxList h.proper
  have hpiece : ∀ qs ∈ boxList (firstParts dims bs) (stopParts dims bs es), ∀ c,
      c ∈ boxList (pieceBegins dims bs qs) (pieceEnds dims es qs) ↔
        InBox (pieceBegins dims bs qs) (pieceEnds dims es qs) c := fun qs hqs c =>
    mem_boxList (piece_proper h hproper ((hparts qs).mp hqs))
  refine (List.perm_ext_iff_of_nodup (nodup_boxList hproper) ?_).mpr fun c => ?_
  · refine List.nodup_flatMap.mpr ⟨fun qs hqs =>
      nodup_boxList (piece_proper h hproper ((hparts qs).mp hqs)), ?_⟩
    refine (nodup_boxList h.proper).imp_of_mem fun {qs qs'} hqs hqs' hne c hc hc' => hne ?_
    rw [← (of_mem_piece h ((hparts qs).mp hqs) ((hpiece qs hqs c).mp hc)).2]
    exact (of_mem_piece h ((hparts qs').mp hqs') ((hpiece qs' hqs' c).mp hc')).2
  · rw [mem_boxList hproper, List.mem_flatMap]
    constructor
    · intro hc
      obtain ⟨hq, hc⟩ := mem_piece h hc
      exact ⟨_, (hparts _).mpr hq, (hpiece _ ((hparts _).mpr hq) c).mpr hc⟩
    · rintro ⟨qs, hqs, hc⟩
      exact (of_mem_piece h ((hparts qs).mp hqs) ((hpiece qs hqs c).mp hc)).1

end Parts

end PbDataHosts
