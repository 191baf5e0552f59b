import Mathlib.Data.List.Basic

/-! # Readers — records read back from the front of a sequence

    A reader takes values off the front of a sequence and leaves the rest.  `Reads p bytes a`
    says that `p` finds `a` in `bytes` and takes exactly these, whatever follows; the rules for
    sequencing, counting and picking build the readers of records from those of fields. -/

namespace PbReader

variable {β α γ : Type}

/-- What is read, and the rest. -/
abbrev Reader (β α : Type) := StateT (List β) Option α

/-- The reader finds this value in these bytes, and takes no more. -/
def Reads (p : Reader β α) (bytes : List β) (a : α) : Prop :=
  ∀ rest, p (bytes ++ rest) = some (a, rest)

/-- A reader that takes nothing and goes on only if the condition holds. -/
def check (c : Prop) [Decidable c] : Reader β Unit := fun buf => if c then some ((), buf) else none

/-- What the reader finds, if it is of the right kind. -/
def pick (p : Reader β α) (f : α → Option γ) : Reader β γ := fun buf =>
  (p buf).bind fun r => (f r.1).map fun c => (c, r.2)

/-- The reader `n` times. -/
def times (p : Reader β α) : Nat → Reader β (List α)
  | 0 => pure []
  | n + 1 => do
      let a ← p
      let as ← times p n
      pure (a :: as)

theorem reads_pure (a : α) : Reads (pure a : Reader β α) [] a := fun _ => rfl

theorem reads_check {c : Prop} [Decidable c] (h : c) : Reads (check c : Reader β Unit) [] () :=
  fun _ => if_pos h

theorem Reads.bind {p : Reader β α} {f : α → Reader β γ} {bytes bytes' : List β} {a : α} {c : γ}
    (h : Reads p bytes a) (h' : Reads (f a) bytes' c) : Reads (p >>= f) (bytes ++ bytes') c := by
  intro rest
  show (p (bytes ++ bytes' ++ rest)).bind _ = _
  rw [List.append_assoc, h]
  exact h' rest

/-- A step that takes nothing. -/
theorem Reads.bind_nil {p : Reader β α} {f : α → Reader β γ} {bytes : List β} {a : α} {c : γ}
    (h : Reads p [] a) (h' : Reads (f a) bytes c) : Reads (p >>= f) bytes c :=
  h.bind h'

/-- The last step of a record. -/
theorem Reads.last {p : Reader β α} {f : α → Reader β γ} {bytes : List β} {a : α} {c : γ}
    (h : Reads p bytes a) (h' : Reads (f a) [] c) : Reads (p >>= f) bytes c := by
  have hboth := h.bind h'
  rw [List.append_nil] at hboth
  exact hboth

theorem Reads.pick {p : Reader β α} {f : α → Option γ} {bytes : List β} {a : α} {c : γ}
    (h : Reads p bytes a) (hc : f a = some c) : Reads (pick p f) bytes c := by
  intro rest
  rw [PbReader.pick, h]
  show (f a).map _ = _
  rw [hc]
  rfl

/-- Values one after the other. -/
theorem Reads.times {p : Reader β α} {enc : α → List β} {as : List α}
    (h : ∀ a ∈ as, Reads p (enc a) a) : Reads (times p as.length) (as.flatMap enc) as := by
  induction as with
  | nil => exact reads_pure []
  | cons a as ih =>
      rw [List.flatMap_cons]
      have hrest := ih fun b hb => h b (List.mem_cons_of_mem a hb)
      exact (h a List.mem_cons_self).bind (hrest.last (reads_pure _))

end PbReader
