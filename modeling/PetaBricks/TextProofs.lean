import Mathlib.Data.List.Basic

/-! # Texts — taken apart at a delimiter, and without the blanks around them -/

namespace PbText

/-- What stands before the first delimiter and what stands behind it. -/
def splitFirst (delim : Char) : List Char → List Char × List Char
  | [] => ([], [])
  | c :: t =>
      if c = delim then ([], t)
      else
        let (left, right) := splitFirst delim t
        (c :: left, right)

/-- A text without the blanks at both ends. -/
def trim (blank : Char → Bool) (t : List Char) : List Char :=
  ((t.dropWhile blank).reverse.dropWhile blank).reverse

/-- A text that neither starts nor ends with a blank. -/
structure Tight (blank : Char → Bool) (t : List Char) : Prop where
  first : ∀ c ∈ t.head?, blank c = false
  last : ∀ c ∈ t.getLast?, blank c = false

variable {blank : Char → Bool} {delim : Char} {a b t : List Char}

theorem splitFirst_append (h : delim ∉ a) : splitFirst delim (a ++ delim :: b) = (a, b) := by
  induction a with
  | nil => exact if_pos rfl
  | cons c a ih =>
      have hc : c ≠ delim := fun heq => h (heq ▸ List.mem_cons_self)
      rw [List.cons_append, splitFirst, if_neg hc, ih fun hmem => h (List.mem_cons_of_mem _ hmem)]

theorem dropWhile_blanks (ha : ∀ c ∈ a, blank c = true) (h : ∀ c ∈ t.head?, blank c = false) :
    (a ++ t).dropWhile blank = t := by
  rw [List.dropWhile_append_of_pos ha]
  cases t with
  | nil => rfl
  | cons c t => simp [h c rfl]

/-- **BLANKS AROUND A TIGHT TEXT** are what is cut off. -/
theorem trim_tight (ht : Tight blank t) (hne : t ≠ []) (ha : ∀ c ∈ a, blank c = true)
    (hb : ∀ c ∈ b, blank c = true) : trim blank (a ++ t ++ b) = t := by
  have hfirst : ∀ c ∈ (t ++ b).head?, blank c = false := by
    intro c hc
    rw [List.head?_append_of_ne_nil _ hne] at hc
    exact ht.first c hc
  have hlast : ∀ c ∈ t.reverse.head?, blank c = false := by
    intro c hc
    rw [List.head?_reverse] at hc
    exact ht.last c hc
  rw [trim, List.append_assoc, dropWhile_blanks ha hfirst, List.reverse_append,
    dropWhile_blanks (fun c hc => hb c (List.mem_reverse.mp hc)) hlast, List.reverse_reverse]

/-- A text without any blank is tight, and so is one that starts and ends with such a text. -/
theorem tight_of_forall (h : ∀ c ∈ t, blank c = false) : Tight blank t :=
  ⟨fun c hc => h c (List.mem_of_mem_head? hc), fun c hc => h c (List.mem_of_mem_getLast? hc)⟩

theorem Tight.append (ha : Tight blank a) (hb : Tight blank b) (hane : a ≠ []) (hbne : b ≠ []) :
    Tight blank (a ++ t ++ b) := by
  constructor
  · intro c hc
    rw [List.append_assoc, List.head?_append_of_ne_nil _ hane] at hc
    exact ha.first c hc
  · intro c hc
    rw [List.getLast?_append_of_ne_nil _ hbne] at hc
    exact hb.last c hc

end PbText
