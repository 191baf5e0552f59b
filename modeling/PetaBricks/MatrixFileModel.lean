import Mathlib.Data.Rat.Defs
import Mathlib.Data.List.Forall2
import PetaBricks.DecimalProofs
import PetaBricks.MixedRadixProofs

/-! # Matrix files — the writers and the reader

    `MatrixIOGeneral::write` exists twice, for a `MatrixRegion` and for a
    `RegionMatrixWrapper`; both print a header with the sizes and then the cells, the
    first coordinate fastest.  `matrixreaderlex` is a scanner with three start
    conditions, which stay as they are from one call to the next; `_read` calls it once
    and checks what it has left in the scratch.

    A writer has no text where it reads a cell the matrix does not have, and the reader no
    result where an assertion fails.  The product of the sizes is an `int`, and has no
    value where it overflows. -/

namespace PbMatrixFile

open PbDecimal

/-! ## The writers -/

/-- A matrix of integers of at most eight digits; its sizes are `int`s. -/
structure Matrix where
  sizes : List Int
  cell : List Int → Int
  nonneg : ∀ n ∈ sizes, 0 ≤ n
  sizes_lt : ∀ n ∈ sizes, n < 2 ^ 31
  cell_lt : ∀ c, (cell c).natAbs < 10 ^ 8

namespace Matrix

/-- `m.cell(coord)`, for the coordinates the matrix has. -/
def access (m : Matrix) (coord : List Int) : Option Int :=
  if List.Forall₂ (fun n x => 0 ≤ x ∧ x < n) m.sizes coord then some (m.cell coord) else none

def count (m : Matrix) : Int := m.sizes.prod

end Matrix

/-- The dimension that was counted up, and the new coordinates.  The dimensions before it
    have come round; past the last one the result is `-1`. -/
def incCoord : List Int → List Int → Option (Nat × List Int)
  | n :: ns, x :: xs =>
      if x + 1 ≥ n then (incCoord ns xs).map fun r => (r.1 + 1, 0 :: r.2)
      else some (0, (x + 1) :: xs)
  | _, _ => none

/-- `%d`, for what is printed here. -/
def number (v : Int) : List Char :=
  if v < 0 then '-' :: digitsText v.natAbs else digitsText v.natAbs

/-- `%4.8g`: eight digits are enough, so there is no point and no exponent. -/
def field (v : Int) : List Char := List.replicate (4 - (number v).length) ' ' ++ number v

def header (m : Matrix) : List Char :=
  ['S', 'I', 'Z', 'E'] ++ m.sizes.flatMap (fun n => ' ' :: number n) ++ ['\n']

/-- `for(;;)` over the cells, with a line break for every dimension that has come round. -/
def writeCells (m : Matrix) : Nat → List Int → Option (List Char)
  | 0, _ => none
  | fuel + 1, coord => do
      let v ← m.access coord
      match incCoord m.sizes coord with
      | none => some (field v ++ [' '])
      | some (z, coord') =>
          let rest ← writeCells m fuel coord'
          some (field v ++ ' ' :: List.replicate z '\n' ++ rest)

/-- What follows the header. -/
def body (m : Matrix) : Option (List Char) :=
  if m.sizes.length > 0 then do
    let cells ← writeCells m (m.count.toNat + 1) (List.replicate m.sizes.length 0)
    some (cells ++ ['\n', '\n'])
  else do
    let v ← m.access []
    some (field v ++ ['\n'])

/-- `write(MatrixRegion)`. -/
def writeMatrixRegion (m : Matrix) : Option (List Char) :=
  if m.count = 0 then some (header m) else (body m).map (header m ++ ·)

/-- `write(RegionMatrixWrapper)`, which does not look at the count. -/
def writeRegionMatrix (m : Matrix) : Option (List Char) := (body m).map (header m ++ ·)

inductive Kind
  | matrixRegion
  | regionMatrix
deriving DecidableEq

/-- A matrix, and which of the writers gets it. -/
structure Written where
  kind : Kind
  matrix : Matrix

def write (w : Written) : Option (List Char) :=
  match w.kind with
  | .matrixRegion => writeMatrixRegion w.matrix
  | .regionMatrix => writeRegionMatrix w.matrix

/-- One matrix after the other, to one stream. -/
def writeAll : List Written → Option (List Char)
  | [] => some []
  | w :: ws => do
      let text ← write w
      let rest ← writeAll ws
      some (text ++ rest)

/-! ## The reader -/

/-- The start conditions of the scanner. -/
inductive Start
  | initial
  | size
  | data
deriving DecidableEq

/-- `MatrixReaderScratch`.  Its constructor sets the storage only; the cells are what
    `buf` has gone over. -/
structure Scratch where
  sizes : Option (List Int) := none
  remaining : Int := 0
  storage : Bool := false
  cells : List ℚ := []
deriving DecidableEq

def maxDimensions : Nat := 64

/-- `StringToX<int>` of digits: `strtol` stops at the largest `long`, and the upper half is
    cut off. -/
def stringToInt (ds : List Char) : Int :=
  ((min (ofDigits ds) (2 ^ 63 - 1) : Nat) + 2 ^ 31 : Int) % 2 ^ 32 - 2 ^ 31

/-- The text of a number, in its parts. -/
structure NumberText where
  minus : Bool
  whole : List Char
  frac : List Char
  e : Bool
  sign : Option Char
  exp : List Char

/-- One of these characters, if it comes next. -/
def optional (cs : List Char) : List Char → Option Char × List Char
  | c :: t => if c ∈ cs then (some c, t) else (none, c :: t)
  | [] => (none, [])

/-- `[-]?[0-9]+[.]?[0-9]*[e]?[+-]?[0-9]*`, where each part is as long as it can be. -/
def numberToken (t : List Char) : Option (NumberText × List Char) :=
  let (minus, t) := optional ['-'] t
  let whole := t.takeWhile Char.isDigit
  let (_, t) := optional ['.'] (t.dropWhile Char.isDigit)
  let frac := t.takeWhile Char.isDigit
  let (e, t) := optional ['e', 'E'] (t.dropWhile Char.isDigit)
  let (sign, t) := optional ['+', '-'] t
  let exp := t.takeWhile Char.isDigit
  if whole = [] then none
  else some (⟨minus.isSome, whole, frac, e.isSome, sign, exp⟩, t.dropWhile Char.isDigit)

/-- `StringToX<double>`, as a rational: `strtod` has to use the whole token, so an exponent has
    digits and nothing else comes after the fraction. -/
def stringToDouble (n : NumberText) : Option ℚ :=
  let m : ℚ := (ofDigits (n.whole ++ n.frac) : ℚ) / 10 ^ n.frac.length
  let v := if n.minus then -m else m
  if n.e then
    if n.exp = [] then none
    else if n.sign = some '-' then some (v / 10 ^ ofDigits n.exp)
    else some (v * 10 ^ ofDigits n.exp)
  else if n.sign = none ∧ n.exp = [] then some v
  else none

/-- `n*=o.sizes[i]`, with no value where an `int` overflows. -/
def product : List Int → Int → Option Int
  | [], n => some n
  | s :: ss, n => if -2 ^ 31 ≤ n * s ∧ n * s < 2 ^ 31 then product ss (n * s) else none

/-- The end of the line with the sizes.  A storage of negative size cannot be allocated. -/
def endOfSizes (o : Scratch) : Option (Scratch × Start) := do
  let sizes ← o.sizes
  let n ← product sizes 1
  if n < 0 then none
  else some ({ o with storage := true, cells := [], remaining := n },
    if n > 0 then .data else .initial)

/-- A cell is read; true if it is the last one. -/
def readCell (o : Scratch) (n : NumberText) : Option (Bool × Scratch × Start) :=
  if o.remaining > 0 then do
    let v ← stringToDouble n
    let o' := { o with cells := o.cells ++ [v], remaining := o.remaining - 1 }
    some (if o'.remaining = 0 then (true, o', .initial) else (false, o', .data))
  else none

/-- `[ \r\t]`. -/
def isBlank (c : Char) : Bool := c = ' ' || c = '\r' || c = '\t'

/-- The rule that applies to a text with this first character, and the rest; true if the
    scanner returns. -/
def step (o : Scratch) : Start → Char → List Char → Option (Bool × Scratch × Start × List Char)
  | .initial, c, t =>
      if isBlank c || c = '\n' then some (false, o, .initial, t)
      else if ((c :: t).take 4).map Char.toLower = ['s', 'i', 'z', 'e'] then
        some (false, { o with sizes := some [] }, .size, t.drop 3)
      else none
  | .size, c, t =>
      if isBlank c || c = 'x' || c = 'X' then some (false, o, .size, t)
      else if c.isDigit then do
        let sizes ← o.sizes
        if sizes.length + 1 < maxDimensions then
          some (false, { o with sizes := some (sizes ++ [stringToInt ((c :: t).takeWhile Char.isDigit)]) },
            .size, (c :: t).dropWhile Char.isDigit)
        else none
      else if c = '\n' then (endOfSizes o).map fun r => (false, r.1, r.2, t)
      else none
  | .data, c, t =>
      if isBlank c || c = '\n' then some (false, o, .data, t)
      else do
        let (n, rest) ← numberToken (c :: t)
        let (done, o', s) ← readCell o n
        some (done, o', s, rest)

theorem length_optional (cs t : List Char) : (optional cs t).2.length ≤ t.length := by
  cases t with
  | nil => exact Nat.le_refl 0
  | cons c t =>
      rw [optional]
      split
      · exact Nat.le_succ _
      · exact Nat.le_refl _

theorem length_dropWhile (p : Char → Bool) (t : List Char) :
    (t.dropWhile p).length ≤ t.length := (List.dropWhile_suffix p).length_le

/-- A number has a digit, and it is used up. -/
theorem length_numberToken {t rest : List Char} {n : NumberText}
    (h : numberToken t = some (n, rest)) : rest.length < t.length := by
  simp only [numberToken] at h
  split at h
  · cases h
  · rename_i hne
    have hrest : _ = rest := congrArg Prod.snd (Option.some.inj h)
    rw [← hrest]
    have hminus := length_optional ['-'] t
    generalize (optional ['-'] t).2 = t₁ at *
    have hwhole : (t₁.dropWhile Char.isDigit).length < t₁.length := by
      have hsum := congrArg List.length (List.takeWhile_append_dropWhile (p := Char.isDigit) (l := t₁))
      rw [List.length_append] at hsum
      have hpos := List.length_pos_of_ne_nil hne
      omega
    have hpoint := length_optional ['.'] (t₁.dropWhile Char.isDigit)
    generalize (optional ['.'] (t₁.dropWhile Char.isDigit)).2 = t₂ at *
    have hfrac := length_dropWhile Char.isDigit t₂
    have he := length_optional ['e', 'E'] (t₂.dropWhile Char.isDigit)
    generalize (optional ['e', 'E'] (t₂.dropWhile Char.isDigit)).2 = t₃ at *
    have hsign := length_optional ['+', '-'] t₃
    generalize (optional ['+', '-'] t₃).2 = t₄ at *
    have hexp := length_dropWhile Char.isDigit t₄
    show (t₄.dropWhile Char.isDigit).length < t.length
    omega

/-- Every rule uses up some of the text. -/
theorem length_step {o o' : Scratch} {s s' : Start} {c : Char} {t rest : List Char} {done : Bool}
    (h : step o s c t = some (done, o', s', rest)) : rest.length < (c :: t).length := by
  cases s with
  | initial =>
      rw [step] at h
      split at h
      · cases h
        exact Nat.lt_succ_self _
      · split at h
        · cases h
          simp only [List.length_drop, List.length_cons]
          omega
        · cases h
  | size =>
      rw [step] at h
      split at h
      · cases h
        exact Nat.lt_succ_self _
      · split at h
        · rename_i hdigit
          obtain ⟨sizes, _, h⟩ := Option.bind_eq_some_iff.mp h
          split at h
          · cases h
            rw [List.dropWhile_cons, if_pos hdigit]
            exact Nat.lt_succ_of_le (length_dropWhile _ _)
          · cases h
        · split at h
          · obtain ⟨r, _, hr⟩ := Option.map_eq_some_iff.mp h
            cases hr
            exact Nat.lt_succ_self _
          · cases h
  | data =>
      rw [step] at h
      split at h
      · cases h
        exact Nat.lt_succ_self _
      · obtain ⟨⟨n, t'⟩, hn, h⟩ := Option.bind_eq_some_iff.mp h
        obtain ⟨⟨d, o'', s''⟩, _, h⟩ := Option.bind_eq_some_iff.mp h
        cases h
        exact length_numberToken hn

/-- `matrixreaderlex`: the scratch, the start condition and the rest of the text on return. -/
def matrixreaderlex (o : Scratch) (s : Start) (text : List Char) :
    Option (Scratch × Start × List Char) :=
  match text with
  | [] => some (o, s, [])
  | c :: t =>
      match h : step o s c t with
      | none => none
      | some (true, r) => some r
      | some (false, o', s', rest) => matrixreaderlex o' s' rest
termination_by text.length
decreasing_by exact length_step h

/-- `MatrixIOGeneral::_read`, from the start condition the scanner was left in. -/
def read (s : Start) (text : List Char) : Option (Scratch × Start × List Char) := do
  let (o, s', rest) ← matrixreaderlex {} s text
  let sizes ← o.sizes
  if sizes.length < maxDimensions ∧ o.storage ∧ o.remaining = 0 then some (o, s', rest) else none

/-- The next matrices of the stream, as many as asked for. -/
def readAll : Nat → Start → List Char → Option (List Scratch)
  | 0, _, _ => some []
  | k + 1, s, text => do
      let (o, s', rest) ← read s text
      let os ← readAll k s' rest
      some (o :: os)

end PbMatrixFile
