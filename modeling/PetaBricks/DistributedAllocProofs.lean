import PetaBricks.DistributedAllocModel
import Mathlib.Algebra.BigOperators.Ring.List

/-! # Distributed allocation — complete, and all on one host

    The loops create the parts by index: rows and columns are the digits of an index, so each
    turn creates a part that was not there (`createPart_filled`), and the last one leaves none
    out.  That holds of any split that can be made; one by slices cannot be made where another
    dimension is empty, for `splitSize` is its size.

    The loop over all parts never increments its counter, so a split by slices has all its parts
    on one host. -/

namespace PbDistributedAlloc

open PbMixedRadix PbRemoteCache PbRegionSplit

/-! ## Loops over a range -/

/-- The rule of a loop: an invariant that each turn carries on, and that no turn is stuck with. -/
theorem foldlM_range {σ : Type} {f : σ → ℕ → Option σ} (I : ℕ → σ → Prop) {n : ℕ} {s : σ}
    (hstart : I 0 s) (hturn : ∀ i < n, ∀ s, I i s → ∃ s', f s i = some s' ∧ I (i + 1) s') :
    ∃ s', (List.range n).foldlM f s = some s' ∧ I n s' := by
  induction n with
  | zero => exact ⟨s, rfl, hstart⟩
  | succ n ih =>
      obtain ⟨s₁, hfold, hinv⟩ := ih fun i hi => hturn i (Nat.lt_succ_of_lt hi)
      obtain ⟨s', hf, hinv'⟩ := hturn n (Nat.lt_succ_self n) s₁ hinv
      refine ⟨s', ?_, hinv'⟩
      rw [List.range_succ, List.foldlM_append, hfold]
      show List.foldlM f s₁ [n] = some s'
      rw [List.foldlM_cons, hf]
      rfl

/-- The rule of a loop that has ended. -/
theorem foldlM_inv {σ α : Type} {f : σ → α → Option σ} {I : σ → Prop} {l : List α} {s s' : σ}
    (hturn : ∀ s a s', I s → f s a = some s' → I s') (hstart : I s)
    (hrun : l.foldlM f s = some s') : I s' := by
  induction l generalizing s with
  | nil => exact Option.some.inj hrun ▸ hstart
  | cons a l ih =>
      rw [List.foldlM_cons] at hrun
      obtain ⟨s₁, hf, hrest⟩ := Option.bind_eq_some_iff.mp hrun
      exact ih (hturn s a s₁ hstart hf) hrest

/-! ## Hosts -/

section Hosts

variable {db : RemoteHostDB}

theorem allocHost_isHost {i : ℕ} (h : i < db.numHosts) : db.IsHost (db.allocHost i) := by
  intro k hk
  have hle := db.allocHostNumber_le
  rw [RemoteHostDB.numHosts] at h
  rw [RemoteHostDB.allocHost] at hk
  split at hk
  · cases hk
    omega
  · split at hk
    · cases hk
    · cases hk
      omega

theorem allocHost_inj {i j : ℕ} (h : db.allocHost i = db.allocHost j) : i = j := by
  simp only [RemoteHostDB.allocHost] at h
  split_ifs at h
  all_goals first | omega | simp only [Option.some.injEq] at h; omega

theorem wrap_lt (r : ℕ) : wrap db r < db.numHosts := by
  have hpos : 0 < db.numHosts := Nat.succ_pos _
  rw [wrap]
  split <;> omega

end Hosts

/-! ## Making the split -/

theorem splitDims_none {size splitSize : List ℕ} (hlen : size.length = splitSize.length)
    (h : 0 ∈ splitSize) : splitDims size splitSize = none := by
  induction splitSize generalizing size with
  | nil => cases h
  | cons q qs ih =>
      cases size with
      | nil => cases hlen
      | cons n ns =>
          rw [splitDims]
          rcases List.mem_cons.mp h with rfl | hrest
          · rfl
          · rw [ih (Nat.succ.inj hlen) hrest]
            cases splitDim n q <;> rfl

/-- `_partsSize` of a size that is not cut into no parts. -/
theorem partsSize_eq {n q : ℕ} (hn : 0 ≤ (n : ℤ)) (hq : 1 ≤ (q : ℤ)) :
    (SplitDim.mk n q hn hq).partsSize = (numOf n q : ℕ) := by
  have hmod : ((n : ℤ).tmod q ≠ 0) ↔ n % q ≠ 0 := by
    rw [← Int.ofNat_tmod]
    exact not_congr Int.natCast_eq_zero
  rw [SplitDim.partsSize, numOf, ← Int.ofNat_tdiv]
  by_cases h : n % q ≠ 0
  · rw [if_pos (hmod.mpr h), if_pos h]
    rfl
  · rw [if_neg (mt hmod.mp h), if_neg h]

theorem splitDims_some {size splitSize : List ℕ} (hlen : size.length = splitSize.length)
    (h : 0 ∉ splitSize) : ∃ dims, splitDims size splitSize = some dims ∧
      PbRegionSplit.sizeOf dims = size.map Nat.cast ∧
      partsSize dims = (List.zipWith numOf size splitSize).map Nat.cast := by
  induction splitSize generalizing size with
  | nil =>
      cases size with
      | nil => exact ⟨[], rfl, rfl, rfl⟩
      | cons n ns => cases hlen
  | cons q qs ih =>
      cases size with
      | nil => cases hlen
      | cons n ns =>
          obtain ⟨hq, hqs⟩ := not_or.mp (mt List.mem_cons.mpr h)
          obtain ⟨dims, hdims, hsize, hparts⟩ := ih (Nat.succ.inj hlen) hqs
          have hdim : splitDim n q =
              some ⟨n, q, Int.natCast_nonneg _, by omega⟩ := dif_neg (Ne.symm hq)
          refine ⟨⟨n, q, Int.natCast_nonneg _, by omega⟩ :: dims, ?_, ?_, ?_⟩
          · rw [splitDims, hdim, hdims]
            rfl
          · exact congrArg (List.cons _) hsize
          · exact congrArg₂ List.cons (partsSize_eq _ _) hparts

/-- No product of numbers of parts overflows. -/
def PartsFit (pieces : List ℕ) : Prop := ∀ n < pieces.length, (pieces.take (n + 1)).prod < 2 ^ 31

theorem mulParts_some {pieces : List ℕ} {m : ℕ}
    (h : ∀ n < pieces.length, m * (pieces.take (n + 1)).prod < 2 ^ 31) :
    mulParts m (pieces.map Nat.cast) = some ((m * pieces.prod : ℕ) : ℤ) := by
  induction pieces generalizing m with
  | nil => rw [List.map_nil, mulParts, List.prod_nil, Nat.mul_one]
  | cons p ps ih =>
      have hfirst : m * p < 2 ^ 31 := by
        have := h 0 (Nat.succ_pos _)
        rwa [List.take_succ_cons, List.take_zero, List.prod_singleton] at this
      have hrest := ih (m := m * p) fun n hn => by
        have := h (n + 1) (Nat.succ_lt_succ hn)
        rwa [List.take_succ_cons, List.prod_cons, ← Nat.mul_assoc] at this
      rw [List.map_cons, mulParts, List.prod_cons, ← Nat.mul_assoc, ← hrest, ← Int.natCast_mul,
        if_pos (by exact_mod_cast hfirst)]

theorem mulParts_fits {pieces : List ℕ} {m : ℕ} {k : ℤ}
    (h : mulParts m (pieces.map Nat.cast) = some k) :
    ∀ n < pieces.length, m * (pieces.take (n + 1)).prod < 2 ^ 31 := by
  induction pieces generalizing m with
  | nil => exact fun n hn => absurd hn (Nat.not_lt_zero n)
  | cons p ps ih =>
      rw [List.map_cons, mulParts] at h
      split at h
      · rename_i hlt
        have hfirst : m * p < 2 ^ 31 := by exact_mod_cast hlt
        intro n hn
        rw [List.take_succ_cons, List.prod_cons, ← Nat.mul_assoc]
        cases n with
        | zero => rwa [List.take_zero, List.prod_nil, Nat.mul_one]
        | succ n =>
            rw [← Int.natCast_mul] at h
            exact ih h n (Nat.lt_of_succ_lt_succ hn)
      · cases h

/-! ## Creating the parts -/

/-- The parts whose index is done are created on a host, and the others are not. -/
structure Filled (db : RemoteHostDB) (dims : List SplitDim) (numParts : ℕ) (done : ℕ → Prop)
    (s : Dealing) : Prop where
  dims_eq : s.split.dims = dims
  length : s.split.parts.length = numParts
  created : ∀ k, done k → ∃ host, db.IsHost host ∧ s.split.parts[k]? = some (some host)
  missing : ∀ k < numParts, ¬ done k → s.split.parts[k]? = some none
  r_lt : s.r < db.numHosts
  lastBegin_lt : s.lastBegin < db.numHosts

section Fill

variable {db : RemoteHostDB} {dims : List SplitDim} {numParts : ℕ} {done : ℕ → Prop}
  {s : Dealing}

/-- Another part, and another value of the counter. -/
theorem createPart_filled (hzero : numParts ≠ 0 → (0 : ℤ) ∉ partsSize dims) (h : Filled db dims numParts done s)
    {index : ℕ} (hlt : index < numParts) (hnew : ¬ done index) :
    ∃ split, createPart s.split index (db.allocHost s.r) = some split ∧
      ∀ r < db.numHosts, Filled db dims numParts (fun k => done k ∨ k = index)
        { s with split := split, r := r } := by
  have hlen := h.length
  refine ⟨{ s.split with parts := s.split.parts.set index (some (db.allocHost s.r)) }, ?_, ?_⟩
  · have hzero' : (0 : ℤ) ∉ partsSize s.split.dims := h.dims_eq ▸ hzero (by omega)
    rw [createPart, if_neg hzero', h.missing index hlt hnew]
  · intro r hr
    refine ⟨h.dims_eq, ?_, ?_, ?_, hr, h.lastBegin_lt⟩
    · rw [← hlen]
      exact List.length_set
    · intro k hk
      show ∃ host, db.IsHost host ∧ (s.split.parts.set index _)[k]? = _
      by_cases heq : index = k
      · refine ⟨_, allocHost_isHost h.r_lt, ?_⟩
        rw [List.getElem?_set, if_pos heq, if_pos (by omega)]
      · obtain ⟨host, hhost, hget⟩ := h.created k (hk.resolve_right (Ne.symm heq))
        refine ⟨host, hhost, ?_⟩
        rw [List.getElem?_set, if_neg heq]
        exact hget
    · intro k hk hnot
      obtain ⟨hdone, hne⟩ := not_or.mp hnot
      show (s.split.parts.set index _)[k]? = _
      rw [List.getElem?_set, if_neg (Ne.symm hne)]
      exact h.missing k hk hdone

theorem Filled.congr {done' : ℕ → Prop} (h : Filled db dims numParts done s)
    (hiff : ∀ k < numParts, done' k ↔ done k) (hlt : ∀ k, done' k → k < numParts) :
    Filled db dims numParts done' s :=
  ⟨h.dims_eq, h.length, fun k hk => h.created k ((hiff k (hlt k hk)).mp hk),
    fun k hk hnot => h.missing k hk (mt (hiff k hk).mpr hnot), h.r_lt, h.lastBegin_lt⟩

theorem dealParts_filled (hzero : numParts ≠ 0 → (0 : ℤ) ∉ partsSize dims)
    (h : Filled db dims numParts (fun _ => False) s) :
    ∃ s', dealParts db s = some s' ∧ Filled db dims numParts (· < numParts) s' := by
  rw [dealParts, h.length]
  refine foldlM_range (fun i s => Filled db dims numParts (· < i) s) ?_ ?_
  · exact h.congr (fun k _ => iff_of_false (Nat.not_lt_zero k) id)
      fun k hk => absurd hk (Nat.not_lt_zero k)
  · intro i hi s hs
    obtain ⟨split, hcreate, hfilled⟩ := createPart_filled hzero hs hi (Nat.lt_irrefl i)
    refine ⟨_, by rw [hcreate]; rfl, (hfilled _ (wrap_lt s.r)).congr ?_ ?_⟩
    · exact fun k _ => Nat.lt_succ_iff_lt_or_eq
    · exact fun k hk => Nat.lt_of_lt_of_le hk hi

/-- The indices of the parts by line and place: each part is at one place of one line. -/
structure Places (num len numParts : ℕ) (index : ℕ → ℕ → ℕ) (line place : ℕ → ℕ) : Prop where
  lt : ∀ i < num, ∀ j < len, index i j < numParts
  line_index : ∀ i < num, ∀ j < len, line (index i j) = i
  place_index : ∀ i < num, ∀ j < len, place (index i j) = j
  index_eq : ∀ k < numParts, index (line k) (place k) = k
  line_lt : ∀ k < numParts, line k < num
  place_lt : ∀ k < numParts, place k < len

variable {num len : ℕ} {index : ℕ → ℕ → ℕ} {line place : ℕ → ℕ}

theorem dealLine_filled (hzero : numParts ≠ 0 → (0 : ℤ) ∉ partsSize dims)
    (hp : Places num len numParts index line place) {i : ℕ} (hi : i < num) (hasExtra : Bool)
    (h : Filled db dims numParts (fun k => k < numParts ∧ line k < i) s) :
    ∃ s', dealLine db len hasExtra (index i) s = some s' ∧
      Filled db dims numParts (fun k => k < numParts ∧ line k < i + 1) s' := by
  have hrun := foldlM_range (f := fun s j => do
      let split ← createPart s.split (index i j) (db.allocHost s.r)
      let r := if !hasExtra || j + 2 != len then s.r + 1 else s.r
      pure { s with split := split, r := wrap db r }) (n := len) (s := s)
    (fun j s => Filled db dims numParts
      (fun k => k < numParts ∧ (line k < i ∨ line k = i ∧ place k < j)) s) ?_ ?_
  · obtain ⟨s', hfold, hfilled⟩ := hrun
    refine ⟨s', hfold, hfilled.congr (fun k hk => ?_) fun k hk => hk.1⟩
    have := hp.place_lt k hk
    constructor <;> rintro ⟨_, h⟩ <;> exact ⟨hk, by omega⟩
  · refine h.congr (fun k hk => ?_) fun k hk => hk.1
    constructor <;> rintro ⟨_, h⟩ <;> exact ⟨hk, by omega⟩
  · intro j hj s hs
    have hline := hp.line_index i hi j hj
    have hplace := hp.place_index i hi j hj
    obtain ⟨split, hcreate, hfilled⟩ := createPart_filled hzero hs (hp.lt i hi j hj) (by omega)
    refine ⟨_, by rw [hcreate]; rfl, (hfilled _ (wrap_lt _)).congr (fun k hk => ?_) fun k hk => hk.1⟩
    -- the part is the one at this place
    have hindex : line k = i → place k = j → k = index i j := by
      rintro rfl rfl
      exact (hp.index_eq k hk).symm
    constructor
    · rintro ⟨_, hk' | ⟨hk', hj'⟩⟩
      · exact Or.inl ⟨hk, Or.inl hk'⟩
      · rcases Nat.lt_succ_iff_lt_or_eq.mp hj' with hlt | heq
        · exact Or.inl ⟨hk, Or.inr ⟨hk', hlt⟩⟩
        · exact Or.inr (hindex hk' heq)
    · rintro (⟨_, hk' | ⟨hk', hj'⟩⟩ | rfl)
      · exact ⟨hk, Or.inl hk'⟩
      · exact ⟨hk, Or.inr ⟨hk', Nat.lt_succ_of_lt hj'⟩⟩
      · exact ⟨hk, Or.inr ⟨hline, by omega⟩⟩

theorem dealLines_filled (hzero : numParts ≠ 0 → (0 : ℤ) ∉ partsSize dims)
    (hp : Places num len numParts index line place) (hasExtra hasExtra' : Bool)
    (h : Filled db dims numParts (fun _ => False) s) :
    ∃ s', dealLines num hasExtra (fun i => dealLine db len hasExtra' (index i)) s = some s' ∧
      Filled db dims numParts (· < numParts) s' := by
  obtain ⟨s', hfold, hfilled⟩ := foldlM_range
    (f := fun s i => dealLine db len hasExtra' (index i)
      { s with
        r := if hasExtra && i + 1 == num then s.lastBegin else s.r,
        lastBegin := if hasExtra && i + 1 == num then s.lastBegin else s.r }) (n := num) (s := s)
    (fun i s => Filled db dims numParts (fun k => k < numParts ∧ line k < i) s)
    (h.congr (fun k hk => iff_of_false (fun h => absurd h.2 (Nat.not_lt_zero _)) id)
      fun k hk => hk.1)
    fun i hi s hs => by
      have hr : (if hasExtra && i + 1 == num then s.lastBegin else s.r) < db.numHosts := by
        split
        · exact hs.lastBegin_lt
        · exact hs.r_lt
      exact dealLine_filled hzero hp hi hasExtra'
        ⟨hs.dims_eq, hs.length, hs.created, hs.missing, hr, hr⟩
  refine ⟨s', hfold, hfilled.congr (fun k hk => ?_) fun k hk => hk⟩
  exact iff_of_true hk ⟨hk, hp.line_lt k hk⟩

end Fill

/-- Rows of an index `j * numCols + i`. -/
theorem places_rows (numRows numCols : ℕ) :
    Places numRows numCols (numCols * numRows) (fun j i => j * numCols + i) (· / numCols)
      (· % numCols) := by
  have hlt : ∀ k < numCols * numRows, 0 < numCols := fun k hk =>
    Nat.pos_of_ne_zero fun h => by rw [h, Nat.zero_mul] at hk; exact Nat.not_lt_zero k hk
  refine ⟨fun j hj i hi => ?_, fun j _ i hi => ?_, fun j _ i hi => ?_, fun k _ => ?_,
    fun k hk => ?_, fun k hk => ?_⟩
  · calc j * numCols + i < j * numCols + numCols := Nat.add_lt_add_left hi _
      _ = numCols * (j + 1) := by ring
      _ ≤ numCols * numRows := Nat.mul_le_mul_left _ hj
  · rw [Nat.mul_comm, Nat.mul_add_div (by omega), Nat.div_eq_of_lt hi, Nat.add_zero]
  · rw [Nat.mul_comm, Nat.mul_add_mod, Nat.mod_eq_of_lt hi]
  · rw [Nat.mul_comm]
    exact Nat.div_add_mod k numCols
  · exact Nat.div_lt_of_lt_mul hk
  · exact Nat.mod_lt k (hlt k hk)

/-- Columns of such an index. -/
theorem places_cols (numRows numCols : ℕ) :
    Places numCols numRows (numCols * numRows) (fun i j => j * numCols + i) (· % numCols)
      (· / numCols) :=
  have h := places_rows numRows numCols
  ⟨fun i hi j hj => h.lt j hj i hi, fun i hi j hj => h.place_index j hj i hi,
    fun i hi j hj => h.line_index j hj i hi, h.index_eq, h.place_lt, h.line_lt⟩

/-! ## Complete -/

/-- **COMPLETE**: the run ends, every part is created on a host, and every cell has one.  The
    indices are below the number of parts and no part is created twice, or `createPart` would
    have stopped. -/
def Complete (db : RemoteHostDB) (size : List ℕ) (result : Option Split) : Prop :=
  ∃ s, result = some s ∧ PbRegionSplit.sizeOf s.dims = size.map Nat.cast ∧
    (s.parts.length : ℤ) = numParts s.dims ∧
    (∀ k < s.parts.length, ∃ host, db.IsHost host ∧ s.parts[k]? = some (some host)) ∧
    ∀ coord, InBounds (size.map Nat.cast) coord →
      ∃ host, s.parts[(coordToPart s.dims coord).1.toNat]? = some (some host)

theorem prod_natCast (pieces : List ℕ) : (pieces.map (Nat.cast : ℕ → ℤ)).prod = (pieces.prod : ℕ) := by
  induction pieces with
  | nil => rfl
  | cons p ps ih => rw [List.map_cons, List.prod_cons, List.prod_cons, ih, Int.natCast_mul]

section Made

variable {db : RemoteHostDB} {size splitSize : List ℕ}

/-- The split of sizes that are not cut into nothing. -/
theorem init_eq (hlen : size.length = splitSize.length) (h : 0 ∉ splitSize) :
    ∃ dims, PbRegionSplit.sizeOf dims = size.map Nat.cast ∧
      partsSize dims = (List.zipWith numOf size splitSize).map Nat.cast ∧
      init size splitSize = (mulParts 1 (partsSize dims)).map
        (fun n => ⟨dims, List.replicate n.toNat none⟩) := by
  obtain ⟨dims, hdims, hsize, hparts⟩ := splitDims_some hlen h
  refine ⟨dims, hsize, hparts, ?_⟩
  rw [init, hdims, Option.map_eq_bind]
  rfl

theorem init_some (hlen : size.length = splitSize.length) (h : 0 ∉ splitSize)
    (hfit : PartsFit (List.zipWith numOf size splitSize)) :
    ∃ dims, PbRegionSplit.sizeOf dims = size.map Nat.cast ∧
      partsSize dims = (List.zipWith numOf size splitSize).map Nat.cast ∧
      init size splitSize =
        some ⟨dims, List.replicate (List.zipWith numOf size splitSize).prod none⟩ := by
  obtain ⟨dims, hsize, hparts, hinit⟩ := init_eq hlen h
  refine ⟨dims, hsize, hparts, ?_⟩
  have hmul := @mulParts_some (List.zipWith numOf size splitSize) 1
    fun n hn => by rw [Nat.one_mul]; exact hfit n hn
  rw [hinit, hparts, ← Nat.cast_one, hmul, Nat.one_mul]
  rfl

theorem zero_not_mem_of_init (hlen : size.length = splitSize.length) {s : Split}
    (hinit : init size splitSize = some s) : 0 ∉ splitSize := by
  intro hmem
  rw [init, splitDims_none hlen hmem] at hinit
  cases hinit

theorem fits_of_init (hlen : size.length = splitSize.length) (h : 0 ∉ splitSize) {s : Split}
    (hinit : init size splitSize = some s) : PartsFit (List.zipWith numOf size splitSize) := by
  obtain ⟨dims, _, hparts, heq⟩ := init_eq hlen h
  rw [heq, hparts] at hinit
  obtain ⟨k, hmul, _⟩ := Option.map_eq_some_iff.mp hinit
  intro n hn
  have := mulParts_fits (m := 1) hmul n hn
  rwa [Nat.one_mul] at this

theorem filled_init (dims : List SplitDim) (n : ℕ) :
    Filled db dims n (fun _ => False) ⟨⟨dims, List.replicate n none⟩, 0, 0⟩ := by
  refine ⟨rfl, List.length_replicate, fun k hk => hk.elim, fun k hk _ => ?_, Nat.succ_pos _,
    Nat.succ_pos _⟩
  show (List.replicate n none)[k]? = some none
  rw [List.getElem?_replicate, if_pos hk]

/-- Where all parts are created, every cell has one. -/
theorem complete_of_filled {dims : List SplitDim} {s : Dealing}
    (hsize : PbRegionSplit.sizeOf dims = size.map Nat.cast)
    (hparts : partsSize dims = (List.zipWith numOf size splitSize).map Nat.cast)
    (h : Filled db dims (List.zipWith numOf size splitSize).prod
      (· < (List.zipWith numOf size splitSize).prod) s) :
    Complete db size (some s.split) := by
  have hnum : (s.split.parts.length : ℤ) = numParts s.split.dims := by
    rw [h.length, h.dims_eq, numParts, hparts, prod_natCast]
  refine ⟨s.split, rfl, h.dims_eq ▸ hsize, hnum, fun k hk => h.created k (h.length ▸ hk), ?_⟩
  intro coord hcoord
  rw [← hsize, ← h.dims_eq] at hcoord
  obtain ⟨⟨h0, hlt⟩, _⟩ := (coordToPart_bijOn s.split.dims).mapsTo hcoord
  obtain ⟨host, _, hget⟩ := h.created (coordToPart s.split.dims coord).1.toNat
    (by have := h.length; show _ < _; omega)
  exact ⟨host, hget⟩

/-- No dimension is without pieces if there are parts. -/
theorem zero_not_mem {dims : List SplitDim} {pieces : List ℕ}
    (hparts : partsSize dims = pieces.map Nat.cast) (h : pieces.prod ≠ 0) :
    (0 : ℤ) ∉ partsSize dims := by
  rw [hparts]
  intro hmem
  obtain ⟨p, hp, hzero⟩ := List.mem_map.mp hmem
  rw [Int.natCast_eq_zero.mp hzero] at hp
  exact h (List.prod_eq_zero hp)

/-- A loop that creates all parts makes the split complete. -/
theorem complete_of_deal {deal : Dealing → Option Dealing}
    (hlen : size.length = splitSize.length) (h : 0 ∉ splitSize)
    (hfit : PartsFit (List.zipWith numOf size splitSize))
    (hdeal : ∀ dims s, ((List.zipWith numOf size splitSize).prod ≠ 0 → (0 : ℤ) ∉ partsSize dims) →
      Filled db dims (List.zipWith numOf size splitSize).prod (fun _ => False) s →
      ∃ s', deal s = some s' ∧ Filled db dims (List.zipWith numOf size splitSize).prod
        (· < (List.zipWith numOf size splitSize).prod) s') :
    Complete db size ((init size splitSize).bind fun split =>
      (deal ⟨split, 0, 0⟩).bind fun s => some s.split) := by
  obtain ⟨dims, hsize, hparts, hinit⟩ := init_some hlen h hfit
  obtain ⟨s', hrun, hfilled⟩ := hdeal dims _ (zero_not_mem hparts) (filled_init dims _)
  rw [hinit, Option.bind_some, hrun]
  exact complete_of_filled hsize hparts hfilled

end Made

/-! ## Blocks and slices -/

section Kinds

variable (db : RemoteHostDB) (size : List ℕ)

theorem sliceSize_ne_zero (distributionSize n : ℕ) : sliceSize distributionSize n ≠ 0 := by
  rw [sliceSize]
  split
  · exact Nat.one_ne_zero
  · assumption

theorem blockSize_ne_zero (twoDim : Bool) (distributionSize n : ℕ) :
    blockSize twoDim distributionSize n ≠ 0 := by
  simp only [blockSize]
  generalize (if n % distributionSize ≠ 0 ∧ twoDim = false then n / distributionSize + 1
    else n / distributionSize) = splitSize
  split
  · exact Nat.one_ne_zero
  · assumption

theorem clamp_ne_zero {distributionSize : ℕ} (h : 1 ≤ distributionSize) :
    clamp db distributionSize ≠ 0 := by
  rw [clamp, RemoteHostDB.numHosts]
  split <;> omega

/-- How many pieces each dimension has in a split by blocks. -/
def blockPieces (distributionSize : ℕ) : List ℕ :=
  List.zipWith numOf size
    (size.map (blockSize (size.length == 2) (clamp db distributionSize)))

theorem zero_not_mem_block (distributionSize : ℕ) :
    0 ∉ size.map (blockSize (size.length == 2) (clamp db distributionSize)) := by
  intro hmem
  obtain ⟨n, _, hn⟩ := List.mem_map.mp hmem
  exact blockSize_ne_zero _ _ _ hn

theorem block_complete {distributionSize : ℕ} (hdist : 1 ≤ distributionSize) (transposed : Bool)
    (hfit : PartsFit (blockPieces db size distributionSize)) :
    Complete db size (allocDataNByBlock db size distributionSize transposed) := by
  have hpos := zero_not_mem_block db size distributionSize
  have hlen : size.length =
    (size.map (blockSize (size.length == 2) (clamp db distributionSize))).length :=
      (List.length_map _).symm
  rw [allocDataNByBlock, if_neg (clamp_ne_zero db hdist)]
  match size with
  | [size0, size1] =>
      have hprod : numOf size0 (blockSize true (clamp db distributionSize) size0) *
          numOf size1 (blockSize true (clamp db distributionSize) size1) =
            (blockPieces db [size0, size1] distributionSize).prod :=
        congrArg (numOf size0 (blockSize true (clamp db distributionSize) size0) * ·)
          (Nat.mul_one (numOf size1 (blockSize true (clamp db distributionSize) size1))).symm
      cases transposed with
      | true =>
          refine complete_of_deal hlen hpos hfit fun dims s hzero hs => ?_
          exact dealLines_filled hzero (hprod ▸ places_cols _ _) _ _ hs
      | false =>
          refine complete_of_deal hlen hpos hfit fun dims s hzero hs => ?_
          exact dealLines_filled hzero (hprod ▸ places_rows _ _) _ _ hs
  | [] => exact complete_of_deal hlen hpos hfit fun _ _ hzero hs => dealParts_filled hzero hs
  | [_] => exact complete_of_deal hlen hpos hfit fun _ _ hzero hs => dealParts_filled hzero hs
  | _ :: _ :: _ :: _ =>
      exact complete_of_deal hlen hpos hfit fun _ _ hzero hs => dealParts_filled hzero hs

/-- A dimension in one piece. -/
theorem numOf_self {n : ℕ} (h : n ≠ 0) : numOf n n = 1 := by
  rw [numOf, Nat.mod_self, if_neg (not_not.mpr rfl), Nat.div_self (Nat.pos_of_ne_zero h)]

theorem numOf_le {n q : ℕ} (h : q ≠ 0) : numOf n q ≤ n := by
  have hdiv := Nat.div_add_mod n q
  have hle : n / q ≤ q * (n / q) := Nat.le_mul_of_pos_left _ (Nat.pos_of_ne_zero h)
  rw [numOf]
  split <;> omega

/-- The pieces of a split by slices: one of each other dimension. -/
theorem slicePieces {f : ℕ → ℕ} {d n : ℕ} (hd : size[d]? = some n)
    (hother : ∀ j, j ≠ d → size[j]? ≠ some 0) :
    List.zipWith numOf size (size.modify d f) =
      List.replicate d 1 ++ numOf n (f n) :: List.replicate (size.length - d - 1) 1 := by
  have hones : ∀ l : List ℕ, (∀ j : ℕ, l[j]? ≠ some 0) →
      List.zipWith numOf l l = List.replicate l.length 1 := by
    intro l hl
    induction l with
    | nil => rfl
    | cons x l ih =>
        have hx : x ≠ 0 := fun h => hl 0 (congrArg some h)
        have htail : ∀ j : ℕ, l[j]? ≠ some 0 := fun j => hl (j + 1)
        have hrest := ih htail
        exact congrArg₂ List.cons (numOf_self hx) hrest
  induction d generalizing size with
  | zero =>
      cases size with
      | nil => cases hd
      | cons x xs =>
          obtain rfl := Option.some.inj hd
          exact congrArg (List.cons _) (hones xs fun j => hother (j + 1) (Nat.succ_ne_zero j))
  | succ d ih =>
      cases size with
      | nil => cases hd
      | cons x xs =>
          have hx : x ≠ 0 := fun h => hother 0 (Nat.succ_ne_zero d).symm (congrArg some h)
          have hrest := ih xs hd fun j hj => hother (j + 1) fun h => hj (Nat.succ.inj h)
          refine (congrArg₂ List.cons (numOf_self hx) hrest).trans ?_
          rw [List.length_cons, Nat.succ_sub_succ]
          rfl

theorem prod_ones (k : ℕ) : (List.replicate k 1).prod = 1 := by
  rw [List.prod_replicate, Nat.one_pow]

theorem fits_slice {d k q : ℕ} (hq : q < 2 ^ 31) :
    PartsFit (List.replicate d 1 ++ q :: List.replicate k 1) := by
  intro n _
  rw [List.take_append, List.prod_append, List.take_replicate, prod_ones, Nat.one_mul]
  cases n + 1 - (List.replicate d 1).length with
  | zero => exact Nat.lt_of_le_of_lt (Nat.le_refl 1) (by decide)
  | succ m =>
      rw [List.take_succ_cons, List.prod_cons, List.take_replicate, prod_ones, Nat.mul_one]
      exact hq

variable {size}

theorem slice_complete {distributionSize : ℕ} (hdist : 1 ≤ distributionSize) {d n : ℕ} (hd : size[d]? = some n)
    (hint : n < 2 ^ 31) (hother : ∀ j, j ≠ d → size[j]? ≠ some 0) :
    Complete db size (allocDataNBySlice db size distributionSize d) := by
  have hpos : 0 ∉ size.modify d (sliceSize (clamp db distributionSize)) := by
    intro hmem
    obtain ⟨j, hj⟩ := List.mem_iff_getElem?.mp hmem
    rw [List.getElem?_modify] at hj
    by_cases heq : d = j
    · subst heq
      rw [hd] at hj
      simp only [if_true] at hj
      exact sliceSize_ne_zero _ _ (Option.some.inj hj)
    · simp only [if_neg heq] at hj
      exact hother j (Ne.symm heq) ((id_map _).symm.trans hj)
  have hfit : PartsFit (List.zipWith numOf size
      (size.modify d (sliceSize (clamp db distributionSize)))) := by
    rw [slicePieces size hd hother]
    exact fits_slice ((numOf_le (sliceSize_ne_zero _ _)).trans_lt hint)
  rw [allocDataNBySlice, if_neg (clamp_ne_zero db hdist)]
  exact complete_of_deal (List.length_modify _ _ _).symm hpos hfit
    fun _ _ hzero hs => dealParts_filled hzero hs

/-- A size of zero is a split size of zero. -/
theorem zero_mem_slice {f : ℕ → ℕ} {d j : ℕ} (hj : j ≠ d) (hzero : size[j]? = some 0) :
    0 ∈ size.modify d f := by
  refine List.mem_of_getElem? (i := j) ?_
  rw [List.getElem?_modify, hzero]
  exact congrArg some (if_neg (Ne.symm hj))

/-- **WHEN DISTRIBUTED ALLOCATION IS COMPLETE**: by slices, if no other dimension is empty; by
    blocks, if the parts can be counted. -/
theorem complete_iff (distributionSize : ℕ) (hdist : 1 ≤ distributionSize)
    (hint : ∀ n ∈ size, n < 2 ^ 31) (kind : Distribution)
    (hkind : ∀ d, kind = .slice d → d < size.length) :
    Complete db size (allocDataN db size distributionSize kind) ↔
      match kind with
      | .slice d => ∀ j, j ≠ d → size[j]? ≠ some 0
      | .block _ => PartsFit (blockPieces db size distributionSize) := by
  cases kind with
  | slice d =>
      refine ⟨fun h j hj hzero => ?_, fun h => ?_⟩
      · obtain ⟨s, hrun, _⟩ := h
        rw [allocDataN, allocDataNBySlice, if_neg (clamp_ne_zero db hdist)] at hrun
        obtain ⟨split, hinit, _⟩ := Option.bind_eq_some_iff.mp hrun
        exact zero_not_mem_of_init (List.length_modify _ _ _).symm hinit (zero_mem_slice hj hzero)
      · have hlt := hkind d rfl
        exact slice_complete db hdist (List.getElem?_eq_getElem hlt)
          (hint _ (List.getElem_mem hlt)) h
  | block transposed =>
      refine ⟨fun h => ?_, block_complete db size hdist transposed⟩
      obtain ⟨s, hrun, _⟩ := h
      rw [allocDataN, allocDataNByBlock, if_neg (clamp_ne_zero db hdist)] at hrun
      obtain ⟨split, hinit, _⟩ := Option.bind_eq_some_iff.mp hrun
      exact fits_of_init (List.length_map _).symm (zero_not_mem_block db size distributionSize)
        hinit

/-- Blocks of a matrix of five columns and four rows on three hosts. -/
theorem complete_fiveByFour :
    Complete ⟨2, 0, Nat.zero_le 2⟩ [5, 4] (allocDataN ⟨2, 0, Nat.zero_le 2⟩ [5, 4] 2
      (.block false)) := by
  refine (complete_iff _ 2 (by decide) (by decide) (.block false) ?_).mpr ?_
  · rintro d ⟨⟩
  · show ∀ n < _, _
    decide

/-- Rows of a matrix without columns. -/
theorem not_complete_noColumns :
    largerThanCutoff [0, 100] 64 (.slice 1) = true ∧
      ¬ Complete ⟨1, 0, Nat.zero_le 1⟩ [0, 100] (allocDataN ⟨1, 0, Nat.zero_le 1⟩ [0, 100] 2
        (.slice 1)) := by
  refine ⟨by decide, ?_⟩
  rintro ⟨s, hrun, _⟩
  cases hrun

end Kinds

/-! ## Where the parts are -/

section Balance

variable {db : RemoteHostDB}

/-- Part after part on host after host. -/
def InRotation (db : RemoteHostDB) (s : Split) : Prop :=
  ∀ k < s.parts.length, s.parts[k]? = some (some (db.allocHost (k % db.numHosts)))

/-- **BALANCED**: two hosts have numbers of parts that differ by one at most. -/
def Balanced (db : RemoteHostDB) (s : Split) : Prop :=
  ∀ x y, db.IsHost x → db.IsHost y → s.parts.count (some x) ≤ s.parts.count (some y) + 1

theorem createPart_parts {s s' : Split} {partIndex : ℕ} {host : Option ℕ}
    (h : createPart s partIndex host = some s') :
    s'.parts = s.parts.set partIndex (some host) := by
  rw [createPart] at h
  split at h
  · cases h
  · split at h
    · cases h
      rfl
    · cases h

/-- The counter is never incremented. -/
theorem dealParts_first {split : Split} {s : Dealing}
    (hnone : ∀ part ∈ split.parts, part = none) (hrun : dealParts db ⟨split, 0, 0⟩ = some s) :
    s.split.parts.length = split.parts.length ∧
      ∀ part ∈ s.split.parts, part = none ∨ part = some (db.allocHost 0) := by
  have hinv := foldlM_inv (I := fun s : Dealing =>
      s.r = 0 ∧ s.split.parts.length = split.parts.length ∧
        ∀ part ∈ s.split.parts, part = none ∨ part = some (db.allocHost 0))
    ?_ ⟨rfl, rfl, fun part hpart => Or.inl (hnone part hpart)⟩ hrun
  · exact hinv.2
  · rintro s i s' ⟨hr, hlen, hparts⟩ hturn
    obtain ⟨split', hcreate, hs'⟩ := Option.bind_eq_some_iff.mp hturn
    obtain rfl := Option.some.inj hs'
    rw [hr] at hcreate ⊢
    refine ⟨rfl, ?_, fun part hpart => ?_⟩
    · show split'.parts.length = _
      rw [createPart_parts hcreate, List.length_set, hlen]
    · have hpart' : part ∈ split'.parts := hpart
      rw [createPart_parts hcreate] at hpart'
      rcases List.mem_or_eq_of_mem_set hpart' with hold | rfl
      · exact hparts part hold
      · exact Or.inr rfl

/-- All parts of a split by slices are on one host. -/
theorem slice_parts {size : List ℕ} {distributionSize d n : ℕ} (hdist : 1 ≤ distributionSize)
    (hd : size[d]? = some n) (hint : n < 2 ^ 31) {s : Split}
    (hs : allocDataNBySlice db size distributionSize d = some s) :
    s.parts = List.replicate (numOf n (sliceSize (clamp db distributionSize) n))
      (some (db.allocHost 0)) := by
  have hlen := (List.length_modify (sliceSize (clamp db distributionSize)) size d).symm
  have hrun := hs
  rw [allocDataNBySlice, if_neg (clamp_ne_zero db hdist)] at hrun
  obtain ⟨split, hinit, hrest⟩ := Option.bind_eq_some_iff.mp hrun
  obtain ⟨s', hdeal, hs'⟩ := Option.bind_eq_some_iff.mp hrest
  obtain rfl := Option.some.inj hs'
  have hpos := zero_not_mem_of_init hlen hinit
  have hother : ∀ j, j ≠ d → size[j]? ≠ some 0 := fun j hj hzero =>
    hpos (zero_mem_slice hj hzero)
  -- how many parts there are
  have hpieces := slicePieces size (f := sliceSize (clamp db distributionSize)) hd hother
  obtain ⟨dims, _, _, hinit'⟩ := init_some hlen hpos (fits_of_init hlen hpos hinit)
  obtain rfl := Option.some.inj (hinit.symm.trans hinit')
  have hprod : (List.replicate d 1 ++ numOf n (sliceSize (clamp db distributionSize) n) ::
      List.replicate (size.length - d - 1) 1).prod =
        numOf n (sliceSize (clamp db distributionSize) n) := by
    rw [List.prod_append, List.prod_cons, prod_ones, prod_ones, Nat.one_mul, Nat.mul_one]
  obtain ⟨hlength, hfirst⟩ := dealParts_first (fun part hpart => List.eq_of_mem_replicate hpart) hdeal
  rw [List.length_replicate, hpieces, hprod] at hlength
  -- and none is left out
  obtain ⟨_, hsome, _, _, hcreated, _⟩ := slice_complete db hdist hd hint hother
  obtain rfl := Option.some.inj (hs.symm.trans hsome)
  refine List.eq_replicate_iff.mpr ⟨hlength, fun part hpart => ?_⟩
  obtain ⟨k, hk⟩ := List.mem_iff_getElem?.mp hpart
  obtain ⟨host, _, hget⟩ := hcreated k (List.getElem?_eq_some_iff.mp hk).1
  rcases hfirst part hpart with rfl | hhost
  · rw [hk] at hget
    cases hget
  · exact hhost

theorem le_mul_numOf {q : ℕ} (h : q ≠ 0) (n : ℕ) : n ≤ q * numOf n q := by
  have hdiv := Nat.div_add_mod n q
  have hmod := Nat.mod_lt n (Nat.pos_of_ne_zero h)
  have hsucc : q * (n / q + 1) = q * (n / q) + q := Nat.mul_succ q (n / q)
  rw [numOf]
  split <;> omega

/-- A split into two slices at least has two parts at least. -/
theorem numOf_le_one_iff {c n : ℕ} (hc : 1 ≤ c) : numOf n (sliceSize c n) ≤ 1 ↔ c = 1 ∨ n ≤ 1 := by
  constructor
  · intro hle
    by_contra hnot
    obtain ⟨hc1, hn⟩ := not_or.mp hnot
    have hmul := le_mul_numOf (sliceSize_ne_zero c n) n
    have hlt : sliceSize c n < n := by
      rw [sliceSize]
      split
      · omega
      · exact Nat.div_lt_self (by omega) (by omega)
    have := Nat.mul_le_mul_left (sliceSize c n) hle
    omega
  · rintro (rfl | hn)
    · rw [sliceSize, Nat.div_one]
      split
      · rename_i hzero
        rw [hzero]
        decide
      · rename_i hzero
        exact (numOf_self hzero).le
    · exact (numOf_le (sliceSize_ne_zero c n)).trans hn

/-- **WHEN SLICES ARE BALANCED**: only if there is nothing to distribute. -/
theorem balanced_iff (db : RemoteHostDB) (size : List ℕ) (distributionSize d n : ℕ)
    (hdist : 1 ≤ distributionSize) (hd : size[d]? = some n) (hint : n < 2 ^ 31) (s : Split)
    (hs : allocDataNBySlice db size distributionSize d = some s) :
    (InRotation db s ↔ db.numHosts = 1 ∨ distributionSize = 1 ∨ n ≤ 1) ∧
      (Balanced db s ↔ db.numHosts = 1 ∨ distributionSize = 1 ∨ n ≤ 1) := by
  have hparts := slice_parts hdist hd hint hs
  have hclamp : 1 ≤ clamp db distributionSize := Nat.pos_of_ne_zero (clamp_ne_zero db hdist)
  have hone : clamp db distributionSize = 1 ↔ db.numHosts = 1 ∨ distributionSize = 1 := by
    have hhosts : 1 ≤ db.numHosts := Nat.succ_pos _
    rw [clamp]
    split <;> omega
  have hfew : numOf n (sliceSize (clamp db distributionSize) n) ≤ 1 ↔
      db.numHosts = 1 ∨ distributionSize = 1 ∨ n ≤ 1 := by
    rw [numOf_le_one_iff hclamp, hone, or_assoc]
  -- another host has no part
  have hsecond : db.numHosts ≠ 1 → db.IsHost (db.allocHost 1) ∧ db.allocHost 0 ≠ db.allocHost 1 := by
    intro hne
    refine ⟨allocHost_isHost ?_, fun h => absurd (allocHost_inj h) (by decide)⟩
    have hhosts : 1 ≤ db.numHosts := Nat.succ_pos _
    omega
  have hmany : ¬ numOf n (sliceSize (clamp db distributionSize) n) ≤ 1 → db.numHosts ≠ 1 :=
    fun hlt hhosts => hlt (hfew.mpr (Or.inl hhosts))
  rw [← hfew]
  refine ⟨⟨fun h => ?_, fun hle k hk => ?_⟩, fun h => ?_, fun hle x y _ _ => ?_⟩
  · by_contra hlt
    have hget := h 1 (by rw [hparts, List.length_replicate]; omega)
    have hhosts : 1 < db.numHosts := by
      have := hmany hlt
      have hpos : 1 ≤ db.numHosts := Nat.succ_pos _
      omega
    rw [hparts, List.getElem?_replicate, if_pos (by omega), Nat.mod_eq_of_lt hhosts] at hget
    exact (hsecond (hmany hlt)).2 (Option.some.inj (Option.some.inj hget))
  · rw [hparts, List.length_replicate] at hk
    have hzero : k = 0 := by omega
    rw [hparts, List.getElem?_replicate, if_pos hk, hzero, Nat.zero_mod]
  · by_contra hlt
    obtain ⟨hhost, hne⟩ := hsecond (hmany hlt)
    have hle := h _ _ (allocHost_isHost (Nat.succ_pos _)) hhost
    rw [hparts, List.count_replicate_self, List.count_replicate, if_neg (by simpa using hne)] at hle
    exact hlt hle
  · refine (List.count_le_length).trans ?_
    rw [hparts, List.length_replicate]
    exact hle.trans (Nat.le_add_left 1 _)

/-- A vector of one element, by slices on three hosts. -/
theorem balanced_oneElement :
    ∃ s, allocDataNBySlice ⟨2, 0, Nat.zero_le 2⟩ [1] 2 0 = some s ∧
      InRotation ⟨2, 0, Nat.zero_le 2⟩ s ∧ Balanced ⟨2, 0, Nat.zero_le 2⟩ s := by
  refine ⟨⟨_, [some none]⟩, rfl, ?_⟩
  have h := balanced_iff ⟨2, 0, Nat.zero_le 2⟩ [1] 2 0 1 (by decide) rfl (by decide) _ rfl
  exact ⟨h.1.mpr (by decide), h.2.mpr (by decide)⟩

/-- A vector of a hundred elements in two slices: both are on the local host. -/
theorem not_balanced_hundred :
    ∃ s, allocDataNBySlice ⟨1, 0, Nat.zero_le 1⟩ [100] 2 0 = some s ∧
      s.parts = [some none, some none] ∧ ¬ InRotation ⟨1, 0, Nat.zero_le 1⟩ s ∧
        ¬ Balanced ⟨1, 0, Nat.zero_le 1⟩ s := by
  refine ⟨⟨_, [some none, some none]⟩, rfl, rfl, fun h => ?_, fun h => ?_⟩
  · exact absurd (h 1 (by decide)) (by decide)
  · have hlocal : (⟨1, 0, Nat.zero_le 1⟩ : RemoteHostDB).IsHost none := by rintro k ⟨⟩
    have hremote : (⟨1, 0, Nat.zero_le 1⟩ : RemoteHostDB).IsHost (some 0) := by
      intro k hk
      cases hk
      exact Nat.one_pos
    exact absurd (h none (some 0) hlocal hremote) (by decide)

end Balance

end PbDistributedAlloc
