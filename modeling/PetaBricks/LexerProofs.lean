import Mathlib.Data.List.Basic
import Mathlib.Tactic.Common

/-! # Lexers — texts cut into tokens

    A lexer is a function that takes the next token off a text; what is only skipped is no
    token.  `Lexes next B a ts` says that the text `a` is cut into `ts` wherever something
    in `B` follows, so that the texts of a syntax can be put together piece by piece. -/

namespace PbLexer

variable {T : Type}

/-- The next token, if it is one, and the rest of the text. -/
abbrev Next (T : Type) := List Char → Option (Option T × List Char)

def tokensFrom (next : Next T) : ℕ → List Char → Option (List T)
  | _, [] => some []
  | 0, _ :: _ => none
  | n + 1, c :: t =>
      (next (c :: t)).bind fun r => (tokensFrom next n r.2).map fun ts => r.1.toList ++ ts

/-- All tokens of a text. -/
def tokens (next : Next T) (t : List Char) : Option (List T) := tokensFrom next t.length t

/-- Something is taken off. -/
def Consumes (next : Next T) : Prop := ∀ t r, next t = some r → r.2.length < t.length

variable {next : Next T}

theorem tokensFrom_eq (h : Consumes next) (n : ℕ) (t : List Char) (hn : t.length ≤ n) :
    tokensFrom next n t = tokens next t := by
  induction n using Nat.strongRecOn generalizing t with
  | ind n ih =>
      cases t with
      | nil => cases n <;> rfl
      | cons c t =>
          cases n with
          | zero => exact absurd hn (Nat.not_succ_le_zero _)
          | succ n =>
              rw [tokens, List.length_cons, tokensFrom, tokensFrom]
              cases hnext : next (c :: t) with
              | none => rfl
              | some r =>
                  have hlt := h _ _ hnext
                  rw [List.length_cons] at hlt hn
                  rw [Option.bind_some, Option.bind_some, ih n (Nat.lt_succ_self n) _ (by omega),
                    ih t.length (by omega) _ (by omega)]

@[simp] theorem tokens_nil : tokens next [] = some [] := rfl

/-- One token at a time. -/
theorem tokens_step (h : Consumes next) {t : List Char} {k : Option T} {r : List Char}
    (hnext : next t = some (k, r)) :
    tokens next t = (tokens next r).map fun ts => k.toList ++ ts := by
  have hlt : r.length < t.length := h _ _ hnext
  cases t with
  | nil => exact absurd hlt (Nat.not_lt_zero _)
  | cons c t =>
      rw [tokens, List.length_cons, tokensFrom, hnext, Option.bind_some]
      rw [List.length_cons] at hlt
      show (tokensFrom next t.length r).map _ = _
      rw [tokensFrom_eq h _ _ (by omega)]

theorem tokens_error {t : List Char} (ht : t ≠ []) (hnext : next t = none) :
    tokens next t = none := by
  cases t with
  | nil => exact absurd rfl ht
  | cons c t =>
      rw [tokens, List.length_cons, tokensFrom, hnext]
      rfl

/-- What holds of every token that can be taken off holds of all tokens of a text. -/
theorem tokens_forall {P : T → Prop} (hP : ∀ t k r, next t = some (some k, r) → P k) {n : ℕ}
    {t : List Char} {ts : List T} (h : tokensFrom next n t = some ts) : ∀ k ∈ ts, P k := by
  induction n generalizing t ts with
  | zero =>
      cases t with
      | nil =>
          cases h
          exact nofun
      | cons c t => cases h
  | succ n ih =>
      cases t with
      | nil =>
          cases h
          exact nofun
      | cons c t =>
          obtain ⟨⟨k, r⟩, hnext, h⟩ := Option.bind_eq_some_iff.mp h
          obtain ⟨us, hus, rfl⟩ := Option.map_eq_some_iff.mp h
          intro k' hk'
          rcases List.mem_append.mp hk' with hhead | hrest
          · cases k with
            | none => cases hhead
            | some k =>
                rw [List.mem_singleton.mp hhead]
                exact hP _ _ _ hnext
          · exact ih hus k' hrest

/-- A character that no token takes stands in no text with tokens. -/
theorem not_mem_of_tokens {c : Char}
    (hc : ∀ t r, next t = some r → c ∈ t → c ∈ r.2) {n : ℕ} {t : List Char} {ts : List T}
    (h : tokensFrom next n t = some ts) : c ∉ t := by
  induction n generalizing t ts with
  | zero =>
      cases t with
      | nil => exact nofun
      | cons d t => cases h
  | succ n ih =>
      cases t with
      | nil => exact nofun
      | cons d t =>
          obtain ⟨r, hnext, h⟩ := Option.bind_eq_some_iff.mp h
          obtain ⟨us, hus, rfl⟩ := Option.map_eq_some_iff.mp h
          exact fun hmem => ih hus (hc _ _ hnext hmem)

/-! ## Piece by piece -/

/-- The text is cut into these tokens, if something in `B` follows. -/
def Lexes (next : Next T) (B : List Char → Prop) (a : List Char) (ts : List T) : Prop :=
  ∀ r, B r → tokens next (a ++ r) = (tokens next r).map fun us => ts ++ us

variable {B : List Char → Prop}

theorem Lexes.nil : Lexes next B [] [] := by
  intro r _
  rw [List.nil_append]
  cases tokens next r <;> rfl

theorem Lexes.one (h : Consumes next) {a : List Char} {k : Option T}
    (hnext : ∀ r, B r → next (a ++ r) = some (k, r)) : Lexes next B a k.toList :=
  fun r hr => tokens_step h (hnext r hr)

theorem Lexes.append {C : List Char → Prop} {a b : List Char} {ts us : List T}
    (ha : Lexes next C a ts) (hb : Lexes next B b us) (hC : ∀ r, B r → C (b ++ r)) :
    Lexes next B (a ++ b) (ts ++ us) := by
  intro r hr
  rw [List.append_assoc, ha _ (hC r hr), hb r hr, Option.map_map]
  congr 1
  funext vs
  exact (List.append_assoc _ _ _).symm

theorem Lexes.mono {C : List Char → Prop} {a : List Char} {ts : List T} (h : Lexes next C a ts)
    (hB : ∀ r, B r → C r) : Lexes next B a ts := fun r hr => h r (hB r hr)

theorem Lexes.tokens {a : List Char} {ts : List T} (h : Lexes next B a ts) (hB : B []) :
    PbLexer.tokens next a = some ts := by
  have htokens := h [] hB
  rw [List.append_nil, tokens_nil, Option.map_some, List.append_nil] at htokens
  exact htokens

end PbLexer
