import PetaBricks.ScratchStorageProofs

/-! # Scratch parts — the loop of `copyHelper` over the parts

    Each part does its piece of the view, and leaves what the others did (`copyPartTo_spec`,
    `copyPartFrom_spec`).  As every coordinate of the view is in a piece, after the last part all
    of the view is copied, and nothing else is (`copyPartsTo_spec`, `copyPartsFrom_spec`). -/

namespace PbScratchCopy

open PbAxes PbMixedRadix PbRegionMatrix PbRegionSplit PbRemoteCache PbDataHosts
open PbMatrixRegion (Positive Positive.prod_pos doWhile doWhile_from boxList boxSize InBox contains_iff_inBounds
  contains_zeros contains_cons mem_boxList)

variable {α : Type}

/-! ## One part replaced -/

section SetPart

variable {m : SplitMatrix α} {p p' : RegionDataRaw α} {k : ℕ}

/-- What the matrix with another part at an index reads. -/
theorem setPart_spec (hp : m.data.parts[k]? = some p) (hsize : p'.size = p.size) :
    ∃ m', m.setPart k p' = some m' ∧ m'.data.dims = m.data.dims ∧ m'.held = m.held ∧
      m'.data.parts[k]? = some p' ∧
      ∀ c, InBounds (sizeOf m.data.dims) c →
        ((coordToPart m.data.dims c).1 = k →
          m'.data.readCell c = p'.readCell (remainders m.data.dims c)) ∧
        ((coordToPart m.data.dims c).1 ≠ k → m'.data.readCell c = m.data.readCell c) := by
  have hfits : p'.size = sizeOfPart m.data.dims k := hsize.trans (m.data.size_part k p hp)
  have hlt : k < m.data.parts.length := (List.getElem?_eq_some_iff.mp hp).1
  have hself : (m.data.withPart k p' hfits).parts[k]? = some p' :=
    List.getElem?_set_self hlt
  refine ⟨_, dif_pos hfits, rfl, rfl, hself, fun c hc => ⟨fun hk => ?_, fun hk => ?_⟩⟩
  · exact RegionDataSplit.readCell_eq (r := m.data.withPart k p' hfits) hk hself
  · obtain ⟨n, q, hn, -, hq, -⟩ := RegionDataSplit.exists_part hc
    have hne : k ≠ n := fun heq => hk (by rw [hn, heq])
    have hother : (m.data.withPart k p' hfits).parts[n]? = some q :=
      (List.getElem?_set_ne hne).trans hq
    rw [RegionDataSplit.readCell_eq hn hq]
    exact RegionDataSplit.readCell_eq (r := m.data.withPart k p' hfits) hn hother

end SetPart

/-! ## The part of a piece -/

/-- A view of a matrix with these dimensions, by its axes. -/
structure Viewed (dims : List SplitDim) (as : List Axis) : Prop where
  corners : Corners dims (axisBegins as) (axisEnds as)
  positive : Positive (sizes as)
  inView : InView (sizeOf dims) as

section Piece

variable {m : SplitMatrix α} {dims : List SplitDim} {as : List Axis} {qs x c : List ℤ}

theorem Viewed.inBounds (hv : Viewed dims as) (hx : Contains (sizes as) x) :
    InBounds (sizeOf dims) (cell as x) := contains_iff_inBounds.mp (hv.inView x hx)

theorem shift_le (h : Corners dims (axisBegins as) (axisEnds as)) (hq : InParts dims as qs) :
    (∀ o ∈ shift dims as qs, 0 ≤ o) ∧
      List.Forall₂ (· ≤ ·) (shifted (sizes (pieceAxes dims as qs)) (shift dims as qs))
        (sizes as) := by
  revert qs
  refine pieces_induct (motive := fun dims as => ∀ {qs : List ℤ}, InParts dims as qs →
    (∀ o ∈ shift dims as qs, 0 ≤ o) ∧
      List.Forall₂ (· ≤ ·) (shifted (sizes (pieceAxes dims as qs)) (shift dims as qs))
        (sizes as)) ?_ ?_ ?_ h
  · intro qs hq
    exact ⟨fun o ho => absurd ho List.not_mem_nil, .nil⟩
  · intro d dims p as hp ih qs hq
    obtain ⟨q, qs, rfl⟩ := inParts_cons hq (List.cons_ne_nil _ _)
    exact ih (inParts_fixed.mp hq).2
  · intro d dims o n as ho hn ih qs hq
    obtain ⟨q, qs, rfl⟩ := inParts_cons hq (List.cons_ne_nil _ _)
    obtain ⟨hnonneg, hle⟩ := ih (inParts_free.mp hq).2
    refine ⟨List.forall_mem_cons.mpr ⟨by omega, hnonneg⟩, .cons ?_ hle⟩
    show min (o + n) (d.splitSize * q + d.splitSize) - max o (d.splitSize * q) +
      (max o (d.splitSize * q) - o) ≤ n
    omega

theorem scratchAxes_eq (h : Corners dims (axisBegins as) (axisEnds as))
    (hq : InParts dims as qs) :
    sizes (scratchAxes dims as qs) = sizes (pieceAxes dims as qs) ∧
      ∀ x, Contains (sizes (pieceAxes dims as qs)) x →
        cell (scratchAxes dims as qs) x = shifted x (shift dims as qs) := by
  obtain ⟨hsizes, hshift⟩ := length_piece h hq
  have hlen := hshift.trans hsizes.symm
  exact ⟨(length_freeAxes hlen).2.1, fun x hx => cell_freeAxes hlen hx.1⟩

/-- A piece has a coordinate. -/
theorem exists_piece (hv : Viewed dims as) (hq : InParts dims as qs) :
    ∃ x, Contains (sizes (pieceAxes dims as qs)) x :=
  ⟨_, contains_zeros.mpr (piece_positive hv.corners hq hv.positive)⟩

/-- The part that a piece is in. -/
theorem part_of_piece (hv : Viewed m.data.dims as) (hq : InParts m.data.dims as qs) :
    ∃ (k : ℕ) (p : RegionDataRaw α), encode (partsSize m.data.dims) qs = k ∧
      m.data.parts[k]? = some p ∧ InView p.size (pieceAxes m.data.dims as qs) ∧
      ∀ x, Contains (sizes (pieceAxes m.data.dims as qs)) x →
        p.readCell (cell (pieceAxes m.data.dims as qs) x) =
          m.data.readCell (cell as (shifted x (shift m.data.dims as qs))) := by
  have hindex : ∀ x, Contains (sizes (pieceAxes m.data.dims as qs)) x →
      ∃ (k : ℕ) (p : RegionDataRaw α), encode (partsSize m.data.dims) qs = k ∧
        m.data.parts[k]? = some p ∧
        InBounds p.size (cell (pieceAxes m.data.dims as qs) x) ∧
        p.readCell (cell (pieceAxes m.data.dims as qs) x) =
          m.data.readCell (cell as (shifted x (shift m.data.dims as qs))) := by
    intro x hx
    obtain ⟨hin, hquot, hrem⟩ := piece_cell hv.corners hq hx
    obtain ⟨k, p, hk, -, hp, hbounds⟩ := RegionDataSplit.exists_part (hv.inBounds hin)
    have hplace : (coordToPart m.data.dims
        (cell as (shifted x (shift m.data.dims as qs)))).2 =
          cell (pieceAxes m.data.dims as qs) x := hrem
    rw [hplace] at hbounds
    refine ⟨k, p, ?_, hp, hbounds, ?_⟩
    · rw [← hk, fst_coordToPart, hquot]
    · rw [RegionDataSplit.readCell_eq hk hp, hplace]
  obtain ⟨x₀, hx₀⟩ := exists_piece hv hq
  obtain ⟨k, p, hk, hp, -, -⟩ := hindex x₀ hx₀
  refine ⟨k, p, hk, hp, fun x hx => ?_, fun x hx => ?_⟩
  · obtain ⟨k', p', hk', hp', hbounds, -⟩ := hindex x hx
    obtain rfl : k = k' := Int.ofNat.inj (hk.symm.trans hk')
    obtain rfl := Option.some.inj (hp.symm.trans hp')
    exact contains_iff_inBounds.mpr hbounds
  · obtain ⟨k', p', hk', hp', -, hread⟩ := hindex x hx
    obtain rfl : k = k' := Int.ofNat.inj (hk.symm.trans hk')
    obtain rfl := Option.some.inj (hp.symm.trans hp')
    exact hread

/-- The piece in the part, and in the scratch storage. -/
theorem boxes_of_piece {p : RegionDataRaw α} {storage : List α} (hv : Viewed dims as)
    (hq : InParts dims as qs) (hin : InView p.size (pieceAxes dims as qs))
    (hcount : (storage.length : ℤ) = (sizes as).prod) :
    Boxes p (pieceAxes dims as qs) (sizes as) storage (scratchAxes dims as qs) := by
  obtain ⟨hsizes, hcell⟩ := scratchAxes_eq hv.corners hq
  obtain ⟨hnonneg, hle⟩ := shift_le hv.corners hq
  obtain ⟨hlen, hshift⟩ := length_piece hv.corners hq
  have hpos := piece_positive hv.corners hq hv.positive
  refine ⟨hsizes, hpos, hin, fun x hx => ?_, hcount, fun hprod => ?_⟩
  · rw [hsizes] at hx
    rw [hcell x hx]
    exact (piece_cell hv.corners hq hx).1
  · have hlens := hshift.trans hlen.symm
    have heq := eq_of_prod hpos (le_of_shifted hlens hnonneg hle) hprod
    refine ⟨heq, fun x hx => ?_⟩
    have hzero : shift dims as qs = List.replicate x.length 0 := by
      rw [hx.1, ← hshift]
      exact zero_of_shifted hlens hnonneg (by rw [heq] at hle ⊢; exact hle)
    rw [hcell x (heq ▸ hx), hzero, shifted_zeros]

/-- What the copies of a piece are called with. -/
def pieceCopy (dims : List SplitDim) (as : List Axis) (qs : List ℤ) : PartCopy :=
  ⟨encode (partsSize dims) qs, ofAxes (pieceAxes dims as qs), ofAxes (scratchAxes dims as qs)⟩

theorem prod_piece_le (hv : Viewed dims as) (hq : InParts dims as qs) :
    (sizes (pieceAxes dims as qs)).prod ≤ (sizes as).prod :=
  prod_le_prod (piece_positive hv.corners hq hv.positive) (piece_le hv.corners hq)

/-- An element of the scratch storage is that of the matrix. -/
def Fetched (m : SplitMatrix α) (as : List Axis) (storage : List α) (y : List ℤ) : Prop :=
  element (sizes as) storage y = m.data.readCell (cell as y)

/-- **A PART TO THE SCRATCH STORAGE.** -/
theorem copyPartTo_spec (hv : Viewed m.data.dims as) (hq : InParts m.data.dims as qs)
    {storage : List α} (hcount : (storage.length : ℤ) = (sizes as).prod) {n : ℕ}
    (hn : (sizes as).prod ≤ n) :
    ∃ storage', m.copyPartTo (pieceCopy m.data.dims as qs) (sizes as) storage n =
        some storage' ∧ storage'.length = storage.length ∧
      (∀ x, Contains (sizes (pieceAxes m.data.dims as qs)) x →
        Fetched m as storage' (shifted x (shift m.data.dims as qs))) ∧
      ∀ y, Contains (sizes as) y → Fetched m as storage y → Fetched m as storage' y := by
  obtain ⟨k, p, hk, hp, hin, hread⟩ := part_of_piece hv hq
  have hboxes := boxes_of_piece hv hq hin hcount
  obtain ⟨hsizes, hcell⟩ := scratchAxes_eq hv.corners hq
  have hle := (prod_piece_le hv hq).trans hn
  have hpart : m.data.part (pieceCopy m.data.dims as qs).index = some p := by
    show m.data.part (encode _ qs) = _
    rw [hk, RegionDataSplit.part_natCast, hp]
  -- here or on another host, the copy is the same
  obtain ⟨storage', hcopy, hcopied⟩ : ∃ storage',
      m.copyPartTo (pieceCopy m.data.dims as qs) (sizes as) storage n = some storage' ∧
        Copied (sizes as) (scratchAxes m.data.dims as qs)
          (fun x => element p.size p.storage (cell (pieceAxes m.data.dims as qs) x)) storage
          storage' := by
    rw [SplitMatrix.copyPartTo, hpart]
    cases hheld : m.held (pieceCopy m.data.dims as qs).index.toNat with
    | raw =>
        obtain ⟨storage', hcopy, hcopied⟩ := rawCopyTo_spec hboxes hle
        exact ⟨storage', hcopy, hcopied⟩
    | remote =>
        obtain ⟨storage', hcopy, hcopied⟩ := remoteCopyTo_spec hboxes hle
        exact ⟨storage', hcopy, hcopied⟩
  have hpiece : ∀ x, Contains (sizes (pieceAxes m.data.dims as qs)) x →
      Fetched m as storage' (shifted x (shift m.data.dims as qs)) := by
    intro x hx
    have hinside := hcopied.inside x (by rwa [hsizes])
    rw [hcell x hx] at hinside
    exact hinside.trans ((readCell_eq_element p (hin x hx)).symm.trans (hread x hx))
  refine ⟨storage', hcopy, hcopied.length, hpiece, fun y hy hfetched => ?_⟩
  by_cases hmem : ∃ x, Contains (sizes (pieceAxes m.data.dims as qs)) x ∧
      shifted x (shift m.data.dims as qs) = y
  · obtain ⟨x, hx, rfl⟩ := hmem
    exact hpiece x hx
  · refine (hcopied.outside y hy fun x hx heq => ?_).trans hfetched
    rw [hsizes] at hx
    exact hmem ⟨x, hx, (hcell x hx).symm.trans heq⟩

/-- **A PART FROM THE SCRATCH STORAGE.** -/
theorem copyPartFrom_spec (hv : Viewed m.data.dims as) (hq : InParts m.data.dims as qs)
    {storage : List α} (hcount : (storage.length : ℤ) = (sizes as).prod) {n : ℕ}
    (hn : (sizes as).prod ≤ n) {room : ℤ}
    (hroom : (sizes (pieceAxes m.data.dims as qs)).prod ≤ room) :
    ∃ m', m.copyPartFrom (pieceCopy m.data.dims as qs) (sizes as) storage room n = some m' ∧
      m'.data.dims = m.data.dims ∧ m'.held = m.held ∧
      (∀ x, Contains (sizes (pieceAxes m.data.dims as qs)) x →
        Fetched m' as storage (shifted x (shift m.data.dims as qs))) ∧
      ∀ c, InBounds (sizeOf m.data.dims) c →
        (∀ x, Contains (sizes (pieceAxes m.data.dims as qs)) x →
          cell as (shifted x (shift m.data.dims as qs)) ≠ c) →
        m'.data.readCell c = m.data.readCell c := by
  obtain ⟨k, p, hk, hp, hin, -⟩ := part_of_piece hv hq
  have hboxes := boxes_of_piece hv hq hin hcount
  obtain ⟨hsizes, hcell⟩ := scratchAxes_eq hv.corners hq
  have hle := (prod_piece_le hv hq).trans hn
  have hindex : (pieceCopy m.data.dims as qs).index.toNat = k := by
    show (encode _ qs).toNat = k
    rw [hk, Int.toNat_natCast]
  have hpart : m.data.part (pieceCopy m.data.dims as qs).index = some p := by
    show m.data.part (encode _ qs) = _
    rw [hk, RegionDataSplit.part_natCast, hp]
  obtain ⟨p', hcopy, hsize, hcopied⟩ : ∃ p', m.copyPartFrom (pieceCopy m.data.dims as qs)
      (sizes as) storage room n = m.setPart k p' ∧ p'.size = p.size ∧
        Copied p.size (pieceAxes m.data.dims as qs)
          (fun x => element (sizes as) storage (cell (scratchAxes m.data.dims as qs) x))
          p.storage p'.storage := by
    rw [SplitMatrix.copyPartFrom, hpart]
    cases hheld : m.held (pieceCopy m.data.dims as qs).index.toNat with
    | raw =>
        obtain ⟨p', hcopy, hsize, hcopied⟩ := rawCopyFrom_spec hboxes hle
        refine ⟨p', ?_, hsize, hcopied⟩
        show (rawCopyFromScratchMatrixStorage p _ _ _ _ n).bind _ = _
        rw [← hindex]
        exact congrArg (Option.bind · _) hcopy
    | remote =>
        obtain ⟨p', hcopy, hsize, hcopied⟩ := remoteCopyFrom_spec hboxes hle hroom
        refine ⟨p', ?_, hsize, hcopied⟩
        show (remoteCopyFromScratchMatrixStorage p _ _ _ _ room n).bind _ = _
        rw [← hindex]
        exact congrArg (Option.bind · _) hcopy
  obtain ⟨m', hm', hdims, hheld, -, hreads⟩ := setPart_spec hp hsize
  have hplace : ∀ x, Contains (sizes (pieceAxes m.data.dims as qs)) x →
      (coordToPart m.data.dims (cell as (shifted x (shift m.data.dims as qs)))).1 = k ∧
        remainders m.data.dims (cell as (shifted x (shift m.data.dims as qs))) =
          cell (pieceAxes m.data.dims as qs) x := by
    intro x hx
    obtain ⟨-, hquot, hrem⟩ := piece_cell hv.corners hq hx
    exact ⟨by rw [fst_coordToPart, hquot, hk], hrem⟩
  refine ⟨m', hcopy.trans hm', hdims, hheld, fun x hx => ?_, fun c hc hne => ?_⟩
  · obtain ⟨hat, hrem⟩ := hplace x hx
    have hbounds := hv.inBounds (piece_cell hv.corners hq hx).1
    have hinside := hcopied.inside x hx
    rw [hcell x hx] at hinside
    rw [Fetched, (hreads _ hbounds).1 hat, hrem,
      readCell_eq_element p' (by rw [hsize]; exact hin x hx), hsize, hinside]
  · by_cases hat : (coordToPart m.data.dims c).1 = k
    · obtain ⟨k', q, hk', -, hq', hplace'⟩ := RegionDataSplit.exists_part hc
      obtain rfl : k = k' := Int.ofNat.inj (hat.symm.trans hk')
      obtain rfl := Option.some.inj (hp.symm.trans hq')
      have hcontains : Contains p.size (remainders m.data.dims c) :=
        contains_iff_inBounds.mpr hplace'
      rw [(hreads c hc).1 hat, readCell_eq_element p' (by rwa [hsize]), hsize,
        hcopied.outside _ hcontains fun x hx heq => ?_, ← readCell_eq_element p hcontains,
        RegionDataSplit.readCell_eq hk' hq']
      · rfl
      · -- two cells with one place in one part are the same
        obtain ⟨hat', hrem⟩ := hplace x hx
        refine hne x hx ((coordToPart_bijOn m.data.dims).injOn
          (hv.inBounds (piece_cell hv.corners hq hx).1) hc (Prod.ext (hat'.trans hat.symm) ?_))
        exact hrem.trans heq
    · exact (hreads c hc).2 hat

end Piece

/-! ## Room in the messages -/

section Room

variable {dims : List SplitDim} {as bs : List Axis} {qs : List ℤ} {i : ℕ}

/-- `partCount` leaves out no dimension but a fixed one. -/
theorem partElementCount_spec (hfixed : ∀ k p, (k, p) ∈ fixed 0 bs → i ≤ k → (k, p) ∈ fixed i as)
    (h : Corners dims (axisBegins as) (axisEnds as)) (hpos : Positive (sizes as)) :
    ∃ count, partElementCount (ofAxes bs) dims i = some count ∧ 1 ≤ count ∧
      ∀ qs, InParts dims as qs → (sizes (pieceAxes dims as qs)).prod ≤ count := by
  have hat : ∀ j, ∃ b, isSliceAt (ofAxes bs).sliceInfo 0 j = some b ∧
      (b = true → ∃ p, (j, p) ∈ fixed 0 bs) := by
    intro j
    show ∃ b, isSliceAt (.ofFixed (fixed 0 bs)) 0 j = some b ∧ _
    cases hlist : fixed 0 bs with
    | nil => exact ⟨false, rfl, fun hb => absurd hb Bool.false_ne_true⟩
    | cons e rest =>
        refine ⟨decide ((j : ℤ) = e.1), rfl, fun hb => ⟨e.2, ?_⟩⟩
        obtain rfl : j = e.1 := Int.ofNat.inj (of_decide_eq_true hb)
        exact List.mem_cons_self
  revert i hpos
  refine pieces_induct (motive := fun dims as => Corners dims (axisBegins as) (axisEnds as) →
    ∀ {i : ℕ}, (∀ k p, (k, p) ∈ fixed 0 bs → i ≤ k → (k, p) ∈ fixed i as) →
    Positive (sizes as) → ∃ count, partElementCount (ofAxes bs) dims i = some count ∧ 1 ≤ count ∧
      ∀ qs, InParts dims as qs → (sizes (pieceAxes dims as qs)).prod ≤ count) ?_ ?_ ?_ h h
  · intro _ i hfixed hpos
    refine ⟨1, rfl, le_rfl, fun qs hq => ?_⟩
    cases hq
    exact le_rfl
  · intro d dims p as hp ih h i hfixed hpos
    obtain ⟨count, hcount, hone, hle⟩ := ih (corners_fixed h).2 (i := i + 1) (fun k p hk hik => by
      rcases List.mem_cons.mp (hfixed k p hk (Nat.le_of_succ_le hik)) with heq | hmem
      · have hki := congrArg Prod.fst heq
        show (k, p) ∈ fixed (i + 1) as
        exact absurd hki (by simp only; omega)
      · exact hmem) hpos
    obtain ⟨b, hb, -⟩ := hat i
    have hsplit : 1 ≤ d.splitSize := d.splitSize_pos
    have hmul : count ≤ d.splitSize * count := by nlinarith
    refine ⟨if b then count else d.splitSize * count, ?_, ?_, fun qs hq => ?_⟩
    · rw [partElementCount, hb]
      show (partElementCount (ofAxes bs) dims (i + 1)).bind _ = _
      rw [hcount]
      rfl
    · split
      · exact hone
      · exact hone.trans hmul
    · obtain ⟨q, qs, rfl⟩ := inParts_cons hq (List.cons_ne_nil _ _)
      have hrest := hle qs (inParts_fixed.mp hq).2
      split
      · exact hrest
      · exact hrest.trans hmul
  · intro d dims o n as ho hn ih h i hfixed hpos
    obtain ⟨hn₀, hpos⟩ := List.forall_mem_cons.mp hpos
    obtain ⟨count, hcount, hone, hle⟩ := ih (corners_free h).2 (i := i + 1)
      (fun k p hk hik => hfixed k p hk (Nat.le_of_succ_le hik)) hpos
    obtain ⟨b, hb, hslice⟩ := hat i
    have hfalse : b = false := by
      by_contra htrue
      obtain ⟨p, hp⟩ := hslice (Bool.eq_true_of_not_eq_false htrue)
      have hmem : i + 1 ≤ i := le_of_mem_fixed (b := i + 1) (hfixed i p hp le_rfl)
      exact absurd hmem (Nat.not_succ_le_self i)
    have hsplit : 1 ≤ d.splitSize := d.splitSize_pos
    refine ⟨d.splitSize * count, ?_, by nlinarith, fun qs hq => ?_⟩
    · rw [partElementCount, hb, hfalse]
      show (partElementCount (ofAxes bs) dims (i + 1)).bind _ = _
      rw [hcount]
      rfl
    · obtain ⟨q, qs, rfl⟩ := inParts_cons hq (List.cons_ne_nil _ _)
      have hq' := (inParts_free.mp hq).2
      have hrest := hle qs hq'
      have hprod := Positive.prod_pos (piece_positive (corners_free h).2 hq' hpos)
      have hsize : min (o + n) (d.splitSize * q + d.splitSize) - max o (d.splitSize * q) ≤
          d.splitSize := by omega
      show (_ * (sizes (pieceAxes dims as qs)).prod : ℤ) ≤ _
      exact Int.mul_le_mul hsize hrest hprod.le (by omega)

/-- **A MESSAGE HAS ROOM** for the piece of its part. -/
theorem messageRoom_spec (h : Corners dims (axisBegins as) (axisEnds as))
    (hpos : Positive (sizes as)) :
    ∃ room, messageRoom (ofAxes as) dims = some room ∧
      ∀ qs, InParts dims as qs → (sizes (pieceAxes dims as qs)).prod ≤ room := by
  obtain ⟨count, hcount, -, hle⟩ := partElementCount_spec
    (fun k p (hk : (k, p) ∈ fixed 0 as) (_ : 0 ≤ k) => hk) h hpos
  refine ⟨if count < (sizes as).prod then count else (sizes as).prod, ?_, fun qs hq => ?_⟩
  · rw [messageRoom, hcount]
    rfl
  · split
    · exact hle qs hq
    · exact prod_le_prod (piece_positive h hq hpos) (piece_le h hq)

end Room

/-! ## All parts -/

section AllParts

variable {m : SplitMatrix α} {scratch : RegionMatrixMetadata} {dims : List SplitDim}
  {as : List Axis} {bs es : List ℤ} {qss : List (List ℤ)} {storage : List α} {n : ℕ}

theorem newBegin_eq (h : Corners dims bs es) :
    newBegin dims bs = scale dims (firstParts dims bs) := by
  induction h with
  | nil => rfl
  | @cons d b e dims bs es hb h ih =>
      have hsum := Int.tmod_add_mul_tdiv b d.splitSize
      rw [newBegin, List.zipWith_cons_cons, firstParts_cons, scale_cons]
      refine congrArg₂ List.cons ?_ ih
      show b - b.tmod d.splitSize = d.splitSize * b.tdiv d.splitSize
      omega

/-- The numbers of the parts of a view. -/
def partsOf (dims : List SplitDim) (as : List Axis) : List (List ℤ) :=
  boxList (firstParts dims (axisBegins as)) (stopParts dims (axisBegins as) (axisEnds as))

theorem mem_partsOf (h : Corners dims (axisBegins as) (axisEnds as)) {qs : List ℤ} :
    qs ∈ partsOf dims as ↔ InParts dims as qs := mem_boxList h.proper

/-- The loop over the parts comes to all of them. -/
theorem partCoords_eq (h : Corners m.data.dims (axisBegins as) (axisEnds as)) :
    ∃ N : ℕ, ∀ n, N ≤ n → m.partCoords (axisBegins as) (axisEnds as) n =
      some ((partsOf m.data.dims as).map (scale m.data.dims)) := by
  obtain ⟨hin, hzero⟩ := h.proper.inBox
  have hpos := h.proper.boxSize_pos
  obtain ⟨k, hk⟩ := Nat.exists_eq_succ_of_ne_zero (by omega :
    (boxSize (firstParts m.data.dims (axisBegins as))
      (stopParts m.data.dims (axisBegins as) (axisEnds as))).toNat ≠ 0)
  refine ⟨k + 1, fun n hn => ?_⟩
  rw [SplitMatrix.partCoords, newBegin_eq h, doWhile_parts h m.dims_ne hin,
    doWhile_from hin k (by omega) (Nat.lt_of_succ_le hn), hzero, partsOf, boxList, hk]
  refine congrArg (fun l => some (l.map (scale m.data.dims))) (List.map_congr_left fun j _ => ?_)
  rw [zero_add]

/-- **ALL PARTS TO THE SCRATCH STORAGE.** -/
theorem copyPartsTo_spec (hv : Viewed m.data.dims as)
    (hs : scratch.splitOffset = List.replicate (sizes as).length 0)
    (hqss : ∀ qs ∈ qss, InParts m.data.dims as qs)
    (hcount : (storage.length : ℤ) = (sizes as).prod) (hn : (sizes as).prod ≤ n) :
    ∃ storage', m.copyPartsTo (ofAxes as) scratch (axisBegins as) (axisEnds as) n
        (qss.map (scale m.data.dims)) storage = some storage' ∧
      storage'.length = storage.length ∧
      (∀ y, Contains (sizes as) y → Fetched m as storage y → Fetched m as storage' y) ∧
      ∀ qs ∈ qss, ∀ x, Contains (sizes (pieceAxes m.data.dims as qs)) x →
        Fetched m as storage' (shifted x (shift m.data.dims as qs)) := by
  induction qss generalizing storage with
  | nil => exact ⟨storage, rfl, rfl, fun _ _ h => h, fun qs hqs => absurd hqs List.not_mem_nil⟩
  | cons qs qss ih =>
      obtain ⟨hq, hqss⟩ := List.forall_mem_cons.mp hqss
      obtain ⟨storage₁, hcopy, hlen₁, hpiece, hkept₁⟩ := copyPartTo_spec hv hq hcount hn
      obtain ⟨storage₂, hrest, hlen₂, hkept₂, hpieces⟩ := ih hqss (by rw [hlen₁, hcount])
      refine ⟨storage₂, ?_, hlen₂.trans hlen₁, fun y hy h => hkept₂ y hy (hkept₁ y hy h),
        fun qs' hqs' x hx => ?_⟩
      · rw [List.map_cons, SplitMatrix.copyPartsTo, partCopy_eq hs hv.corners hq]
        show (m.copyPartTo (pieceCopy m.data.dims as qs) (sizes as) storage n).bind _ = _
        rw [hcopy]
        exact hrest
      · rcases List.mem_cons.mp hqs' with rfl | hqs'
        · exact hkept₂ _ (piece_cell hv.corners hq hx).1 (hpiece x hx)
        · exact hpieces qs' hqs' x hx

/-- **ALL PARTS FROM THE SCRATCH STORAGE.** -/
theorem copyPartsFrom_spec (hd : m.data.dims = dims) (hv : Viewed dims as)
    (hs : scratch.splitOffset = List.replicate (sizes as).length 0)
    (hqss : ∀ qs ∈ qss, InParts dims as qs)
    (hcount : (storage.length : ℤ) = (sizes as).prod) (hn : (sizes as).prod ≤ n) {room : ℤ}
    (hroom : ∀ qs ∈ qss, (sizes (pieceAxes dims as qs)).prod ≤ room) :
    ∃ m', copyPartsFrom (ofAxes as) scratch (axisBegins as) (axisEnds as) (sizes as) storage room
        n (qss.map (scale dims)) m = some m' ∧ m'.data.dims = dims ∧ m'.held = m.held ∧
      (∀ y, Contains (sizes as) y → Fetched m as storage y → Fetched m' as storage y) ∧
      (∀ qs ∈ qss, ∀ x, Contains (sizes (pieceAxes dims as qs)) x →
        Fetched m' as storage (shifted x (shift dims as qs))) ∧
      ∀ c, InBounds (sizeOf dims) c → (∀ y, Contains (sizes as) y → cell as y ≠ c) →
        m'.data.readCell c = m.data.readCell c := by
  induction qss generalizing m with
  | nil =>
      exact ⟨m, rfl, hd, rfl, fun _ _ h => h, fun qs hqs => absurd hqs List.not_mem_nil,
        fun _ _ _ => rfl⟩
  | cons qs qss ih =>
      obtain ⟨hq, hqss⟩ := List.forall_mem_cons.mp hqss
      obtain ⟨hroom₀, hroom⟩ := List.forall_mem_cons.mp hroom
      have hroom' : (sizes (pieceAxes m.data.dims as qs)).prod ≤ room := by rwa [hd]
      have hstep := copyPartFrom_spec (by rwa [hd]) (by rwa [hd]) hcount hn hroom'
      rw [hd] at hstep
      obtain ⟨m₁, hcopy, hd₁, hheld₁, hpiece, hkept₁⟩ := hstep
      obtain ⟨m₂, hrest, hd₂, hheld₂, hkept₂, hpieces, hframe⟩ := ih hd₁ hqss hroom
      refine ⟨m₂, ?_, hd₂, hheld₂.trans hheld₁, fun y hy h => hkept₂ y hy ?_,
        fun qs' hqs' x hx => ?_, fun c hc hne => ?_⟩
      · rw [List.map_cons, copyPartsFrom, hd, partCopy_eq hs hv.corners hq]
        show (m.copyPartFrom (pieceCopy dims as qs) (sizes as) storage room n).bind _ = _
        rw [hcopy]
        exact hrest
      · -- what is written again is the same
        by_cases hmem : ∃ x, Contains (sizes (pieceAxes dims as qs)) x ∧
            shifted x (shift dims as qs) = y
        · obtain ⟨x, hx, rfl⟩ := hmem
          exact hpiece x hx
        · refine h.trans (hkept₁ _ (hv.inBounds hy) fun x hx heq => hmem ⟨x, hx, ?_⟩).symm
          exact cell_inj (piece_cell hv.corners hq hx).1.1 hy.1 heq
      · rcases List.mem_cons.mp hqs' with rfl | hqs'
        · exact hkept₂ _ (piece_cell hv.corners hq hx).1 (hpiece x hx)
        · exact hpieces qs' hqs' x hx
      · rw [hframe c hc hne, hkept₁ c hc fun x hx => hne _ (piece_cell hv.corners hq hx).1]

end AllParts

end PbScratchCopy
