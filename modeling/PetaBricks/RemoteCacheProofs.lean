import PetaBricks.OrderedMapProofs
import Mathlib.Algebra.Order.Ring.Int
import Mathlib.Algebra.BigOperators.Group.List.Basic
import Mathlib.Tactic.Linarith

/-!
# The remote cell cache — lines of a raw region, kept by one client

`RegionDataRemoteCache` keeps lines of a remote region.  A read that no line holds asks the
owner for the line around the cell (`READCELLCACHE`); a write goes through to the owner and
updates the line that holds the cell, if one does.

The client splits the offset of a cell into a page, the key of a line in the page and the place
in the line; the owner rounds the offset down to a multiple of the line size.  The two agree
once the page size is a multiple of the line size, and then the invariant is `Agrees`: whatever
cell a line would answer for, it answers with what the owner stores.

A value of type `size_t` that is stored in an `IndexT` wraps to 32 bits; a nonnegative `IndexT`
keeps its value as a `size_t`.  Memory that was never written has no value here, and neither
has a remainder by zero.
-/

namespace PbRemoteCache

open PbOrderedMap

variable {α : Type}

/-- What is left of a `size_t` in an `IndexT`, an `int`. -/
def toIndexT (n : Nat) : Int := Int.bmod n (2 ^ 32)

theorem toIndexT_of_lt {n : Nat} (h : n < 2 ^ 31) : toIndexT n = n :=
  Int.bmod_eq_of_le (by omega) (by omega)

/-! ## The owner -/

/-- The loop that computes the multipliers, from a dimension whose multiplier is `m`. -/
def multipliersFrom (m : Int) : List Int → List Int
  | [] => []
  | s :: size => m :: multipliersFrom (m * s) size

/-- The multipliers of a region of this size. -/
def multipliersOf (size : List Int) : List Int := multipliersFrom 1 size

/-- The offset of a coordinate. -/
def offset (multipliers coord : List Int) : Int :=
  (List.zipWith (· * ·) multipliers coord).sum

/-- A region whose cells are here: as many as its size says. -/
structure RegionDataRaw (α : Type) where
  size : List Int
  storage : List α
  count_eq : (storage.length : Int) = size.prod

structure ReadCellCacheMessage where
  cacheLineSize : Nat
  coord : List Int

structure ReadCellCacheReplyMessage (α : Type) where
  start : Int
  «end» : Int
  values : List α

namespace RegionDataRaw

variable (r : RegionDataRaw α)

def coordOffset (coord : List Int) : Int := offset (multipliersOf r.size) coord

def readCell (coord : List Int) : Option α := r.storage[(r.coordOffset coord).toNat]?

def writeCell (coord : List Int) (value : α) : RegionDataRaw α where
  size := r.size
  storage := r.storage.set (r.coordOffset coord).toNat value
  count_eq := by rw [List.length_set]; exact r.count_eq

/-- The line around a cell, short if it is the last one. -/
def processReadCellCacheMsg (msg : ReadCellCacheMessage) : ReadCellCacheReplyMessage α :=
  let coordOffset := r.coordOffset msg.coord
  let startOffset := coordOffset - (coordOffset.toNat % msg.cacheLineSize : Nat)
  let numValues := r.storage.length - startOffset.toNat
  let numValues := if numValues > msg.cacheLineSize then msg.cacheLineSize else numValues
  { start := 0
    «end» := numValues - 1
    values := (r.storage.drop startOffset.toNat).take numValues }

end RegionDataRaw

/-! ## The client -/

/-- A line; of `base` the part that has been written. -/
structure RegionDataRemoteCacheLine (α : Type) where
  isValid : Bool
  offset : Int
  start : Int
  «end» : Int
  base : List α
  deriving DecidableEq

/-- `new RegionDataRemoteCacheLine`. -/
def newLine : RegionDataRemoteCacheLine α := ⟨false, 0, 0, 0, []⟩

structure RegionDataRemoteCache (α : Type) where
  multipliers : List Int
  cacheLineSize : Nat
  numCacheLines : Nat
  cacheLines : OrderedMap Int (RegionDataRemoteCacheLine α)

/-- Where a cell is kept: the page, the line in it and the place in the line. -/
structure Slot where
  offset : Int
  key : Int
  elementOffset : Int
  deriving DecidableEq

/-- The line answers for the cell at this place. -/
def RegionDataRemoteCacheLine.holds (line : RegionDataRemoteCacheLine α) (s : Slot) : Bool :=
  line.isValid && line.offset = s.offset && line.start ≤ s.elementOffset &&
    line.end ≥ s.elementOffset

/-- `readByCache`: copy the reply over the line. -/
def RegionDataRemoteCacheLine.readByCache (line : RegionDataRemoteCacheLine α)
    (reply : ReadCellCacheReplyMessage α) : RegionDataRemoteCacheLine α where
  isValid := line.isValid
  offset := line.offset
  start := reply.start
  «end» := reply.end
  base := reply.values.take (reply.end + 1).toNat ++ line.base.drop (reply.end + 1).toNat

namespace RegionDataRemoteCache

variable (c : RegionDataRemoteCache α)

def pageSize : Int := toIndexT (c.cacheLineSize * c.numCacheLines)

def slot (coord : List Int) : Option Slot :=
  let coordOffset := PbRemoteCache.offset c.multipliers coord
  if c.pageSize = 0 then none
  else
    let pageOffset := coordOffset.tmod c.pageSize
    let elementOffset : Int := (pageOffset.toNat % c.cacheLineSize : Nat)
    some ⟨coordOffset - pageOffset, pageOffset - elementOffset, elementOffset⟩

def getCacheLine (key : Int) : RegionDataRemoteCacheLine α :=
  (c.cacheLines.find key).getD newLine

/-- The cache with this line under this key. -/
def setLine (key : Int) (line : RegionDataRemoteCacheLine α) : RegionDataRemoteCache α :=
  { c with cacheLines := c.cacheLines.insert key line }

def readCell (r : RegionDataRaw α) (coord : List Int) :
    Option (α × RegionDataRemoteCache α) := do
  let s ← c.slot coord
  let cacheLine := c.getCacheLine s.key
  if cacheLine.holds s then
    let v ← cacheLine.base[s.elementOffset.toNat]?
    pure (v, c.setLine s.key cacheLine)
  else
    let reply := r.processReadCellCacheMsg ⟨c.cacheLineSize, coord⟩
    let cacheLine := { cacheLine.readByCache reply with isValid := true, offset := s.offset }
    let x ← cacheLine.base[s.elementOffset.toNat]?
    pure (x, c.setLine s.key cacheLine)

def writeCell (r : RegionDataRaw α) (coord : List Int) (value : α) :
    Option (RegionDataRaw α × RegionDataRemoteCache α) := do
  let s ← c.slot coord
  let cacheLine := c.getCacheLine s.key
  let cacheLine :=
    if cacheLine.holds s then
      { cacheLine with base := cacheLine.base.set s.elementOffset.toNat value }
    else cacheLine
  pure (r.writeCell coord value, c.setLine s.key cacheLine)

def invalidate : RegionDataRemoteCache α := { c with cacheLines := ∅ }

end RegionDataRemoteCache

/-- `cacheGenerator` for a region of this size. -/
def cacheGenerator (size : List Int) (cacheLineSize numCacheLines : Nat) :
    RegionDataRemoteCache α :=
  ⟨multipliersOf size, cacheLineSize, numCacheLines, ∅⟩

/-! ## Runs -/

/-- What the client does, and the writes of others before one of its invalidations. -/
inductive Op (α : Type)
  | read (coord : List Int)
  | write (coord : List Int) (value : α)
  | invalidate (others : List (List Int × α))

/-- The writes of others, in their order. -/
def RegionDataRaw.writeCells (r : RegionDataRaw α) (ws : List (List Int × α)) :
    RegionDataRaw α :=
  ws.foldl (fun r w => r.writeCell w.1 w.2) r

/-- The values a client reads through the cache, and the region it leaves. -/
def runCached : RegionDataRaw α → RegionDataRemoteCache α → List (Op α) →
    Option (List α × RegionDataRaw α)
  | r, _, [] => some ([], r)
  | r, c, .read coord :: ops => do
      let (v, c) ← c.readCell r coord
      let (vs, r) ← runCached r c ops
      pure (v :: vs, r)
  | r, c, .write coord value :: ops => do
      let (r, c) ← c.writeCell r coord value
      runCached r c ops
  | r, c, .invalidate others :: ops => runCached (r.writeCells others) c.invalidate ops

/-- The same with every access sent to the owner. -/
def runNoCache : RegionDataRaw α → List (Op α) → Option (List α × RegionDataRaw α)
  | r, [] => some ([], r)
  | r, .read coord :: ops => do
      let v ← r.readCell coord
      let (vs, r) ← runNoCache r ops
      pure (v :: vs, r)
  | r, .write coord value :: ops => runNoCache (r.writeCell coord value) ops
  | r, .invalidate others :: ops => runNoCache (r.writeCells others) ops

/-! ## Offsets -/

/-- A coordinate of a region of this size. -/
def InBounds (size coord : List Int) : Prop :=
  List.Forall₂ (fun s x => 0 ≤ x ∧ x < s) size coord

theorem offset_bounds {size coord : List Int} (h : InBounds size coord) :
    ∀ {m : Int}, 0 ≤ m →
      0 ≤ offset (multipliersFrom m size) coord ∧
      offset (multipliersFrom m size) coord + m ≤ m * size.prod := by
  induction h with
  | nil =>
      intro m hm
      simp [offset, multipliersFrom]
  | @cons s x size coord hx _ ih =>
      intro m hm
      obtain ⟨hx0, hxs⟩ := hx
      obtain ⟨hlo, hhi⟩ := ih (m := m * s) (mul_nonneg hm (by omega))
      rw [multipliersFrom, List.prod_cons, ← mul_assoc]
      have hcons : offset (m :: multipliersFrom (m * s) size) (x :: coord) =
          m * x + offset (multipliersFrom (m * s) size) coord := by
        simp [offset]
      have hmx : 0 ≤ m * x := mul_nonneg hm hx0
      have hstep : m * x + m ≤ m * s := by nlinarith
      rw [hcons]
      constructor
      · omega
      · omega

/-- The cells of a region have the positions of its storage. -/
theorem RegionDataRaw.coordOffset_bounds (r : RegionDataRaw α) {coord : List Int}
    (h : InBounds r.size coord) :
    ∃ n : Nat, r.coordOffset coord = n ∧ n < r.storage.length := by
  obtain ⟨hlo, hhi⟩ := offset_bounds h (m := 1) (by decide)
  have hcount := r.count_eq
  rw [one_mul] at hhi
  obtain ⟨n, hn⟩ := Int.eq_ofNat_of_zero_le hlo
  refine ⟨n, hn, ?_⟩
  rw [hn] at hhi
  omega

/-! ## Slots -/

/-- The slot of position `n`: its page, the line in the page and the place in the line. -/
def slotAt (lineSize numLines n : Nat) : Slot where
  offset := n - (n % (lineSize * numLines) : Nat)
  key := (n % (lineSize * numLines) : Nat) - (n % lineSize : Nat)
  elementOffset := (n % lineSize : Nat)

/-- **THE CLIENT AND THE OWNER CUT LINES ALIKE**: where the page size is the product of line
    size and number of lines, the place of a cell in its line is the remainder by the line
    size. -/
theorem RegionDataRemoteCache.slot_eq (c : RegionDataRemoteCache α) {coord : List Int} {n : Nat}
    (hpage : c.pageSize = (c.cacheLineSize * c.numCacheLines : Nat))
    (hpos : 0 < c.cacheLineSize * c.numCacheLines)
    (hn : PbRemoteCache.offset c.multipliers coord = n) :
    c.slot coord = some (slotAt c.cacheLineSize c.numCacheLines n) := by
  have hne : c.pageSize ≠ 0 := by omega
  have hmod : (n : Int).tmod c.pageSize = (n % (c.cacheLineSize * c.numCacheLines) : Nat) := by
    rw [hpage, Int.ofNat_tmod]
  have hplace : n % (c.cacheLineSize * c.numCacheLines) % c.cacheLineSize = n % c.cacheLineSize :=
    Nat.mod_mod_of_dvd n (Nat.dvd_mul_right _ _)
  rw [slot, if_neg hne, hn, hmod]
  simp only [Int.toNat_natCast, hplace]
  rfl

/-- Positions of one line differ by their place only. -/
theorem slotAt_start {lineSize numLines n m : Nat}
    (hoffset : (slotAt lineSize numLines n).offset = (slotAt lineSize numLines m).offset)
    (hkey : (slotAt lineSize numLines n).key = (slotAt lineSize numLines m).key) :
    n - n % lineSize = m - m % lineSize := by
  have hn := Nat.mod_le n lineSize
  have hm := Nat.mod_le m lineSize
  simp only [slotAt] at hoffset hkey
  omega

/-! ## The invariant -/

/-- What a line answers for a position is what is stored there. -/
def LineAgrees (lineSize numLines : Nat) (storage : List α) (key : Int)
    (line : RegionDataRemoteCacheLine α) : Prop :=
  ∀ n < storage.length, (slotAt lineSize numLines n).key = key →
    line.holds (slotAt lineSize numLines n) = true → line.base[n % lineSize]? = storage[n]?

/-- Every line answers with what is stored. -/
def Agrees (c : RegionDataRemoteCache α) (storage : List α) : Prop :=
  ∀ key line, c.cacheLines.find key = some line →
    LineAgrees c.cacheLineSize c.numCacheLines storage key line

theorem holds_iff {line : RegionDataRemoteCacheLine α} {s : Slot} :
    line.holds s = true ↔ line.isValid = true ∧ line.offset = s.offset ∧
      line.start ≤ s.elementOffset ∧ s.elementOffset ≤ line.end := by
  simp [RegionDataRemoteCacheLine.holds, and_assoc]

/-- A line that is looked up agrees; a new one answers for nothing. -/
theorem Agrees.getCacheLine {c : RegionDataRemoteCache α} {storage : List α}
    (h : Agrees c storage) (key : Int) :
    LineAgrees c.cacheLineSize c.numCacheLines storage key (c.getCacheLine key) := by
  rw [RegionDataRemoteCache.getCacheLine]
  cases hfind : c.cacheLines.find key with
  | none =>
      intro n _ _ hholds
      cases hholds
  | some line => exact h key line hfind

/-- Putting a line that agrees into a cache that agrees elsewhere. -/
theorem agrees_setLine {c : RegionDataRemoteCache α} {storage : List α} {key : Int}
    {line : RegionDataRemoteCacheLine α}
    (hline : LineAgrees c.cacheLineSize c.numCacheLines storage key line)
    (hothers : ∀ key' line', key' ≠ key → c.cacheLines.find key' = some line' →
      LineAgrees c.cacheLineSize c.numCacheLines storage key' line') :
    Agrees (c.setLine key line) storage := by
  intro key' line' hfind
  rw [RegionDataRemoteCache.setLine, OrderedMap.find_insert] at hfind
  by_cases hkey : key' = key
  · rw [if_pos hkey] at hfind
    obtain rfl := Option.some.inj hfind
    rw [hkey]
    exact hline
  · rw [if_neg hkey] at hfind
    exact hothers key' line' hkey hfind

/-- A line filled with the reply of the owner agrees. -/
theorem lineAgrees_reply (r : RegionDataRaw α) {coord : List Int} {n : Nat}
    (hn : r.coordOffset coord = n) (lineSize numLines : Nat)
    (line : RegionDataRemoteCacheLine α) :
    LineAgrees lineSize numLines r.storage (slotAt lineSize numLines n).key
      { line.readByCache (r.processReadCellCacheMsg ⟨lineSize, coord⟩) with
        isValid := true, offset := (slotAt lineSize numLines n).offset } := by
  intro m hm hkey hholds
  obtain ⟨-, hoffset, -, hend⟩ := holds_iff.mp hholds
  have hstart := slotAt_start (Eq.symm hoffset) hkey
  have hle : m % lineSize ≤ m := Nat.mod_le m lineSize
  have hsub : ((n : Int) - (n % lineSize : Nat)).toNat = n - n % lineSize := by omega
  simp only [RegionDataRemoteCacheLine.readByCache, RegionDataRaw.processReadCellCacheMsg, hn,
    Int.toNat_natCast, hsub, ← hstart, slotAt] at hend ⊢
  generalize hk : (if r.storage.length - (m - m % lineSize) > lineSize then lineSize
    else r.storage.length - (m - m % lineSize)) = k at hend ⊢
  have hkle : k ≤ r.storage.length - (m - m % lineSize) := by
    split at hk <;> omega
  have hlt : m % lineSize < k := by omega
  have hall : ((k : Int) - 1 + 1).toNat = k := by omega
  have hlen : ((r.storage.drop (m - m % lineSize)).take k).length = k := by
    rw [List.length_take, List.length_drop]
    omega
  rw [hall, List.take_of_length_le (le_of_eq hlen), List.getElem?_append_left (by omega),
    List.getElem?_take_of_lt hlt, List.getElem?_drop]
  congr 1
  omega

/-- A line filled with the reply of the owner answers for the cell it was asked for. -/
theorem holds_reply (r : RegionDataRaw α) {coord : List Int} {n : Nat}
    (hn : r.coordOffset coord = n) (hlt : n < r.storage.length) {lineSize : Nat}
    (hpos : 0 < lineSize) (numLines : Nat) (line : RegionDataRemoteCacheLine α) :
    RegionDataRemoteCacheLine.holds
      { line.readByCache (r.processReadCellCacheMsg ⟨lineSize, coord⟩) with
        isValid := true, offset := (slotAt lineSize numLines n).offset }
      (slotAt lineSize numLines n) = true := by
  have hplace : n % lineSize < lineSize := Nat.mod_lt n hpos
  have hle : n % lineSize ≤ n := Nat.mod_le n lineSize
  have hsub : ((n : Int) - (n % lineSize : Nat)).toNat = n - n % lineSize := by omega
  refine holds_iff.mpr ⟨rfl, rfl, Int.natCast_nonneg _, ?_⟩
  simp only [RegionDataRemoteCacheLine.readByCache, RegionDataRaw.processReadCellCacheMsg, hn,
    Int.toNat_natCast, hsub, slotAt]
  split <;> omega

/-! ## Reads and writes -/

/-- A cache of a region, with a page that is a whole number of lines, that agrees with it. -/
structure Coherent (c : RegionDataRemoteCache α) (r : RegionDataRaw α) : Prop where
  page : c.pageSize = (c.cacheLineSize * c.numCacheLines : Nat)
  pos : 0 < c.cacheLineSize * c.numCacheLines
  multipliers : c.multipliers = multipliersOf r.size
  agrees : Agrees c r.storage

theorem Coherent.slot {c : RegionDataRemoteCache α} {r : RegionDataRaw α} (h : Coherent c r)
    {coord : List Int} {n : Nat} (hn : r.coordOffset coord = n) :
    c.slot coord = some (slotAt c.cacheLineSize c.numCacheLines n) := by
  refine c.slot_eq h.page h.pos ?_
  rw [h.multipliers]
  exact hn

/-- **A CACHED READ RETURNS WHAT IS STORED**, and the cache stays coherent. -/
theorem Coherent.readCell {c : RegionDataRemoteCache α} {r : RegionDataRaw α}
    (h : Coherent c r) {coord : List Int} (hcoord : InBounds r.size coord) :
    ∃ v c', c.readCell r coord = some (v, c') ∧ r.readCell coord = some v ∧ Coherent c' r := by
  obtain ⟨n, hn, hlt⟩ := r.coordOffset_bounds hcoord
  have hstored : r.storage[n]? = some r.storage[n] := List.getElem?_eq_getElem hlt
  have hread : r.readCell coord = some r.storage[n] := by
    rw [RegionDataRaw.readCell, hn, Int.toNat_natCast, hstored]
  have hline := h.agrees.getCacheLine (slotAt c.cacheLineSize c.numCacheLines n).key
  rw [RegionDataRemoteCache.readCell, h.slot hn]
  simp only [Option.bind_eq_bind, Option.bind_some]
  by_cases hholds : (c.getCacheLine (slotAt c.cacheLineSize c.numCacheLines n).key).holds
      (slotAt c.cacheLineSize c.numCacheLines n) = true
  · rw [if_pos hholds]
    have hbase := hline n hlt rfl hholds
    rw [show (slotAt c.cacheLineSize c.numCacheLines n).elementOffset.toNat =
      n % c.cacheLineSize from Int.toNat_natCast _, hbase, hstored]
    exact ⟨_, _, rfl, hread, h.page, h.pos, h.multipliers,
      agrees_setLine hline (fun key line _ hfind => h.agrees key line hfind)⟩
  · rw [if_neg hholds]
    have hnew := lineAgrees_reply r hn c.cacheLineSize c.numCacheLines
      (c.getCacheLine (slotAt c.cacheLineSize c.numCacheLines n).key)
    have hbase := hnew n hlt rfl
      (holds_reply r hn hlt (Nat.pos_of_mul_pos_right h.pos) c.numCacheLines _)
    rw [show (slotAt c.cacheLineSize c.numCacheLines n).elementOffset.toNat =
      n % c.cacheLineSize from Int.toNat_natCast _, hbase, hstored]
    exact ⟨_, _, rfl, hread, h.page, h.pos, h.multipliers,
      agrees_setLine hnew (fun key line _ hfind => h.agrees key line hfind)⟩

/-- A write leaves the answers of a line alone that does not answer for the cell. -/
theorem LineAgrees.set_other {lineSize numLines : Nat} {storage : List α} {key : Int}
    {line : RegionDataRemoteCacheLine α} (h : LineAgrees lineSize numLines storage key line)
    {n : Nat} (value : α)
    (hother : (slotAt lineSize numLines n).key = key →
      line.holds (slotAt lineSize numLines n) = false) :
    LineAgrees lineSize numLines (storage.set n value) key line := by
  intro m hm hkey hholds
  rw [List.length_set] at hm
  have hne : n ≠ m := by
    rintro rfl
    rw [hother hkey] at hholds
    cases hholds
  rw [List.getElem?_set_ne hne]
  exact h m hm hkey hholds

/-- A write updates the line that answers for the cell. -/
theorem LineAgrees.set_self {lineSize numLines : Nat} {storage : List α}
    {line : RegionDataRemoteCacheLine α} {n : Nat} (hn : n < storage.length)
    (h : LineAgrees lineSize numLines storage (slotAt lineSize numLines n).key line) (value : α)
    (hholds : line.holds (slotAt lineSize numLines n) = true) :
    LineAgrees lineSize numLines (storage.set n value) (slotAt lineSize numLines n).key
      { line with base := line.base.set (n % lineSize) value } := by
  intro m hm hkey hholds'
  rw [List.length_set] at hm
  by_cases hnm : n = m
  · subst hnm
    have hbase := h n hn rfl hholds
    rw [List.getElem?_eq_getElem hn] at hbase
    obtain ⟨hlen, -⟩ := List.getElem?_eq_some_iff.mp hbase
    rw [List.getElem?_set_self hlen, List.getElem?_set_self hn]
  · -- another cell of the line has another place in it
    have hoffset := (holds_iff.mp hholds').2.1
    have hstart := slotAt_start (Eq.symm (hoffset.symm.trans (holds_iff.mp hholds).2.1)) hkey.symm
    have hplace : n % lineSize ≠ m % lineSize := by
      intro heq
      have hn' := Nat.mod_le n lineSize
      have hm' := Nat.mod_le m lineSize
      omega
    rw [List.getElem?_set_ne hplace, List.getElem?_set_ne hnm]
    exact h m hm hkey hholds'

/-- **A CACHED WRITE STORES THE VALUE**, and the cache stays coherent. -/
theorem Coherent.writeCell {c : RegionDataRemoteCache α} {r : RegionDataRaw α}
    (h : Coherent c r) {coord : List Int} (hcoord : InBounds r.size coord) (value : α) :
    ∃ c', c.writeCell r coord value = some (r.writeCell coord value, c') ∧
      Coherent c' (r.writeCell coord value) := by
  obtain ⟨n, hn, hlt⟩ := r.coordOffset_bounds hcoord
  have hstorage : (r.writeCell coord value).storage = r.storage.set n value := by
    change r.storage.set (r.coordOffset coord).toNat value = _
    rw [hn, Int.toNat_natCast]
  have hline := h.agrees.getCacheLine (slotAt c.cacheLineSize c.numCacheLines n).key
  have hothers : ∀ key line, key ≠ (slotAt c.cacheLineSize c.numCacheLines n).key →
      c.cacheLines.find key = some line →
      LineAgrees c.cacheLineSize c.numCacheLines (r.storage.set n value) key line :=
    fun key line hkey hfind => (h.agrees key line hfind).set_other value
      (fun heq => absurd heq.symm hkey)
  rw [RegionDataRemoteCache.writeCell, h.slot hn]
  simp only [Option.bind_eq_bind, Option.bind_some]
  refine ⟨_, rfl, h.page, h.pos, h.multipliers, ?_⟩
  rw [hstorage]
  refine agrees_setLine ?_ hothers
  by_cases hholds : (c.getCacheLine (slotAt c.cacheLineSize c.numCacheLines n).key).holds
      (slotAt c.cacheLineSize c.numCacheLines n) = true
  · rw [if_pos hholds]
    exact hline.set_self hlt value hholds
  · rw [if_neg hholds]
    exact hline.set_other value (fun _ => Bool.eq_false_iff.mpr hholds)

/-- An empty cache agrees with anything. -/
theorem agrees_empty {c : RegionDataRemoteCache α} (hc : c.cacheLines = ∅) (storage : List α) :
    Agrees c storage := by
  intro key line hfind
  rw [hc] at hfind
  cases hfind

/-! ## Runs -/

theorem RegionDataRaw.writeCells_size (ws : List (List Int × α)) (r : RegionDataRaw α) :
    (r.writeCells ws).size = r.size := by
  induction ws generalizing r with
  | nil => rfl
  | cons w ws ih => exact ih (r.writeCell w.1 w.2)

/-- The client reads and writes cells of the region. -/
def Op.InBounds (size : List Int) : Op α → Prop
  | .read coord => PbRemoteCache.InBounds size coord
  | .write coord _ => PbRemoteCache.InBounds size coord
  | .invalidate _ => True

theorem Coherent.run {ops : List (Op α)} : ∀ {c : RegionDataRemoteCache α} {r : RegionDataRaw α},
    Coherent c r → (∀ op ∈ ops, op.InBounds r.size) →
      ∃ vs r', runCached r c ops = some (vs, r') ∧ runNoCache r ops = some (vs, r') := by
  induction ops with
  | nil => exact fun _ _ => ⟨[], _, rfl, rfl⟩
  | cons op ops ih =>
      intro c r h hops
      obtain ⟨hop, hrest⟩ := List.forall_mem_cons.mp hops
      cases op with
      | read coord =>
          obtain ⟨v, c', hcached, hdirect, h'⟩ := h.readCell hop
          obtain ⟨vs, r', hvs, hvs'⟩ := ih h' hrest
          exact ⟨v :: vs, r', by simp [runCached, hcached, hvs], by simp [runNoCache, hdirect, hvs']⟩
      | write coord value =>
          obtain ⟨c', hcached, h'⟩ := h.writeCell hop value
          obtain ⟨vs, r', hvs, hvs'⟩ := ih h' hrest
          exact ⟨vs, r', by simp [runCached, hcached, hvs], by simp [runNoCache, hvs']⟩
      | invalidate others =>
          have h' : Coherent c.invalidate (r.writeCells others) :=
            ⟨h.page, h.pos, by rw [r.writeCells_size]; exact h.multipliers, agrees_empty rfl _⟩
          obtain ⟨vs, r', hvs, hvs'⟩ := ih h' (by rw [r.writeCells_size]; exact hrest)
          exact ⟨vs, r', hvs, hvs'⟩

/-- **THE REMOTE CACHE IS COHERENT**: whatever one client reads and writes, with the writes of
    others only before an invalidation, it reads through its cache what it would read without,
    for every line size and number of lines whose product fits an index. -/
theorem runCached_eq_runNoCache (r : RegionDataRaw α) (lineSize numLines : Nat)
    (hpos : 0 < lineSize * numLines) (hfits : lineSize * numLines < 2 ^ 31) (ops : List (Op α))
    (hops : ∀ op ∈ ops, op.InBounds r.size) :
    ∃ vs r', runCached r (cacheGenerator r.size lineSize numLines) ops = some (vs, r') ∧
      runNoCache r ops = some (vs, r') := by
  exact Coherent.run ⟨toIndexT_of_lt hfits, hpos, rfl, agrees_empty rfl _⟩ hops

/-- Five cells in one dimension. -/
def fiveCells : RegionDataRaw Nat := ⟨[5], [10, 11, 12, 13, 14], rfl⟩

theorem runCached_eq_runNoCache_fiveCells :
    ∃ vs r', runCached fiveCells (cacheGenerator [5] 2 2)
        [.read [4], .write [0] 7, .read [1], .read [0], .read [4]] = some (vs, r') ∧
      runNoCache fiveCells [.read [4], .write [0] 7, .read [1], .read [0], .read [4]] =
        some (vs, r') := by
  refine runCached_eq_runNoCache fiveCells 2 2 (by decide) (by decide) _ ?_
  have hcell : ∀ x : Int, 0 ≤ x → x < 5 → InBounds fiveCells.size [x] :=
    fun x h0 h5 => List.Forall₂.cons ⟨h0, h5⟩ List.Forall₂.nil
  simp only [List.forall_mem_cons]
  exact ⟨hcell 4 (by decide) (by decide), hcell 0 (by decide) (by decide),
    hcell 1 (by decide) (by decide), hcell 0 (by decide) (by decide),
    hcell 4 (by decide) (by decide), by simp⟩

/-- With lines of 3 and 1431655766 of them the page size wraps to 2, and a read of cell 2
    returns cell 0. -/
theorem pageSize_wraps :
    (runCached fiveCells (cacheGenerator [5] 3 1431655766) [.read [2]]).map Prod.fst = some [10] ∧
    (runNoCache fiveCells [.read [2]]).map Prod.fst = some [12] := by
  decide

end PbRemoteCache
