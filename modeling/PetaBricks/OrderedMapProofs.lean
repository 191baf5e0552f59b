import Mathlib.Order.Defs.LinearOrder
import Mathlib.Data.List.Basic
import Mathlib.Data.List.Sort
import Mathlib.Tactic.Common

/-!
# Ordered maps — association lists kept in key order

A container that is walked in key order and looked up by key: the entries of a map are a
list whose keys strictly increase, and the order is a field of the structure, so every
operation has to keep it.  The interface is the one of an ordered tree map:

  * `update` is "find or create the slot of a key, then overwrite it with a function of what
    it held"; `insert` is the update that ignores the old value;
  * `erase` drops a slot;
  * a set is a map to `Unit`, walked in the same order.

Everything a client needs is a fact about `find`.  Two maps with the same `find` are equal
(`ext_find`), walking a map meets exactly what `find` sees (`mem_entries`), and the two folds
that rewrite a map (`foldl_insert`, where the later of two writes to one slot wins, and
`foldl_update`, where both writes are joined) are described by what `find` sees afterwards.
-/

namespace PbOrderedMap

variable {κ ν : Type} [LinearOrder κ]

/-! ## Sorted lists of entries -/

/-- The value stored at a key. -/
def lookup (k : κ) : List (κ × ν) → Option ν
  | [] => none
  | (k', v) :: rest => if k = k' then some v else lookup k rest

/-- Overwrite the slot of a key, creating it where the key order wants it. -/
def upsert (k : κ) (f : Option ν → ν) : List (κ × ν) → List (κ × ν)
  | [] => [(k, f none)]
  | (k', v) :: rest =>
      if k < k' then (k, f none) :: (k', v) :: rest
      else if k = k' then (k, f (some v)) :: rest
      else (k', v) :: upsert k f rest

/-- The keys strictly increase along the list. -/
def Sorted (l : List (κ × ν)) : Prop := l.Pairwise (fun a b => a.1 < b.1)

/-- A key that every entry exceeds is not stored. -/
theorem lookup_of_lt {k : κ} {l : List (κ × ν)} (h : ∀ e ∈ l, k < e.1) :
    lookup k l = none := by
  induction l with
  | nil => rfl
  | cons e rest ih =>
      obtain ⟨k', v⟩ := e
      have hk : k < k' := h (k', v) List.mem_cons_self
      rw [lookup, if_neg (ne_of_lt hk)]
      exact ih (fun e he => h e (List.mem_cons_of_mem _ he))

/-- The keys of an upserted list are the old keys and the new one. -/
theorem key_of_mem_upsert {k : κ} {f : Option ν → ν} {l : List (κ × ν)} {e : κ × ν}
    (h : e ∈ upsert k f l) : e.1 = k ∨ e ∈ l := by
  induction l with
  | nil =>
      rw [upsert, List.mem_singleton] at h
      exact Or.inl (by rw [h])
  | cons x rest ih =>
      obtain ⟨k', v⟩ := x
      rw [upsert] at h
      by_cases hlt : k < k'
      · rw [if_pos hlt, List.mem_cons] at h
        rcases h with h | h
        · exact Or.inl (by rw [h])
        · exact Or.inr h
      · rw [if_neg hlt] at h
        by_cases heq : k = k'
        · rw [if_pos heq, List.mem_cons] at h
          rcases h with h | h
          · exact Or.inl (by rw [h])
          · exact Or.inr (List.mem_cons_of_mem _ h)
        · rw [if_neg heq, List.mem_cons] at h
          rcases h with h | h
          · exact Or.inr (h ▸ List.mem_cons_self)
          · exact (ih h).imp id (List.mem_cons_of_mem _)

/-- Upserting keeps the key order. -/
theorem Sorted.upsert {l : List (κ × ν)} (h : Sorted l) (k : κ) (f : Option ν → ν) :
    Sorted (upsert k f l) := by
  induction l with
  | nil => exact List.pairwise_singleton _ _
  | cons x rest ih =>
      obtain ⟨k', v⟩ := x
      obtain ⟨hx, hrest⟩ := List.pairwise_cons.mp h
      rw [PbOrderedMap.upsert]
      by_cases hlt : k < k'
      · rw [if_pos hlt]
        refine List.pairwise_cons.mpr ⟨?_, h⟩
        intro e he
        rcases List.mem_cons.mp he with he | he
        · exact he ▸ hlt
        · exact hlt.trans (hx e he)
      · rw [if_neg hlt]
        by_cases heq : k = k'
        · rw [if_pos heq]
          exact List.pairwise_cons.mpr ⟨fun e he => heq ▸ hx e he, hrest⟩
        · rw [if_neg heq]
          refine List.pairwise_cons.mpr ⟨?_, ih hrest⟩
          intro e he
          rcases key_of_mem_upsert he with he | he
          · exact he ▸ lt_of_le_of_ne (not_lt.mp hlt) (Ne.symm heq)
          · exact hx e he

/-- What is stored after an upsert. -/
theorem lookup_upsert {l : List (κ × ν)} (h : Sorted l) (k b : κ) (f : Option ν → ν) :
    lookup b (upsert k f l) = if b = k then some (f (lookup k l)) else lookup b l := by
  induction l with
  | nil => rw [upsert, lookup]; rfl
  | cons x rest ih =>
      obtain ⟨k', v⟩ := x
      obtain ⟨hx, hrest⟩ := List.pairwise_cons.mp h
      rw [upsert]
      by_cases hlt : k < k'
      · have hfresh : lookup k ((k', v) :: rest) = none := by
          apply lookup_of_lt
          intro e he
          rcases List.mem_cons.mp he with he | he
          · exact he ▸ hlt
          · exact hlt.trans (hx e he)
        rw [if_pos hlt, lookup, hfresh]
      · rw [if_neg hlt]
        by_cases heq : k = k'
        · subst heq
          simp only [if_true, lookup]
          by_cases hb : b = k
          · rw [if_pos hb, if_pos hb]
          · rw [if_neg hb, if_neg hb, if_neg hb]
        · rw [if_neg heq, lookup, ih hrest, lookup, lookup, if_neg heq]
          by_cases hb : b = k'
          · have hne : b ≠ k := fun hbk => heq (hbk.symm.trans hb)
            rw [if_pos hb, if_neg hne, if_pos hb]
          · rw [if_neg hb, if_neg hb]

/-- An entry of a sorted list is what its key looks up. -/
theorem lookup_of_mem {l : List (κ × ν)} (h : Sorted l) {k : κ} {v : ν}
    (hm : (k, v) ∈ l) : lookup k l = some v := by
  induction l with
  | nil => exact absurd hm List.not_mem_nil
  | cons x rest ih =>
      obtain ⟨k', v'⟩ := x
      obtain ⟨hx, hrest⟩ := List.pairwise_cons.mp h
      rw [lookup]
      rcases List.mem_cons.mp hm with hm | hm
      · obtain ⟨rfl, rfl⟩ := Prod.mk.inj hm
        exact if_pos rfl
      · rw [if_neg (ne_of_gt (hx _ hm))]
        exact ih hrest hm

/-- What a key looks up is an entry. -/
theorem mem_of_lookup {l : List (κ × ν)} {k : κ} {v : ν} (h : lookup k l = some v) :
    (k, v) ∈ l := by
  induction l with
  | nil => cases h
  | cons x rest ih =>
      obtain ⟨k', v'⟩ := x
      rw [lookup] at h
      by_cases hk : k = k'
      · rw [if_pos hk] at h
        rw [hk, Option.some.inj h]
        exact List.mem_cons_self
      · rw [if_neg hk] at h
        exact List.mem_cons_of_mem _ (ih h)

/-! ## The structure -/

/-- A map whose entries are walked in key order. -/
structure OrderedMap (κ ν : Type) [LinearOrder κ] where
  entries : List (κ × ν)
  sorted : Sorted entries

/-- A set walked in order. -/
abbrev OrderedSet (κ : Type) [LinearOrder κ] := OrderedMap κ Unit

namespace OrderedMap

instance [DecidableEq ν] : DecidableEq (OrderedMap κ ν) := fun a b =>
  decidable_of_iff (a.entries = b.entries)
    ⟨fun h => by cases a; cases b; cases h; rfl, fun h => by rw [h]⟩

instance : EmptyCollection (OrderedMap κ ν) := ⟨⟨[], List.Pairwise.nil⟩⟩

instance : Inhabited (OrderedMap κ ν) := ⟨∅⟩

/-- The value at a key. -/
def find (m : OrderedMap κ ν) (k : κ) : Option ν := lookup k m.entries

/-- Overwrite the slot of a key with a function of what it holds. -/
def update (m : OrderedMap κ ν) (k : κ) (f : Option ν → ν) : OrderedMap κ ν :=
  ⟨upsert k f m.entries, m.sorted.upsert k f⟩

/-- Store a value at a key. -/
def insert (m : OrderedMap κ ν) (k : κ) (v : ν) : OrderedMap κ ν :=
  m.update k (fun _ => v)

/-- Store the slots of a list one after the other. -/
def ofList (l : List (κ × ν)) : OrderedMap κ ν := l.foldl (fun m e => m.insert e.1 e.2) ∅

/-- Keep the slots whose keys pass a test. -/
def filter (m : OrderedMap κ ν) (p : κ → Bool) : OrderedMap κ ν :=
  ⟨m.entries.filter (fun e => p e.1), m.sorted.filter _⟩

/-- Drop the slot of a key. -/
def erase (m : OrderedMap κ ν) (k : κ) : OrderedMap κ ν := m.filter (fun b => b ≠ k)

/-- The keys, in order. -/
def keys (m : OrderedMap κ ν) : List κ := m.entries.map Prod.fst

instance : Membership κ (OrderedMap κ ν) := ⟨fun m k => (m.find k).isSome = true⟩

instance (k : κ) (m : OrderedMap κ ν) : Decidable (k ∈ m) :=
  inferInstanceAs (Decidable ((m.find k).isSome = true))

/-! ## Looking up -/

theorem mem_iff {m : OrderedMap κ ν} {k : κ} : k ∈ m ↔ ∃ v, m.find k = some v :=
  Option.isSome_iff_exists

theorem not_mem_iff {m : OrderedMap κ ν} {k : κ} : k ∉ m ↔ m.find k = none := by
  show ¬ (m.find k).isSome = true ↔ _
  simp

@[simp] theorem find_empty (k : κ) : (∅ : OrderedMap κ ν).find k = none := rfl

@[simp] theorem not_mem_empty (k : κ) : k ∉ (∅ : OrderedMap κ ν) := not_mem_iff.mpr rfl

theorem mem_entries {m : OrderedMap κ ν} {k : κ} {v : ν} :
    (k, v) ∈ m.entries ↔ m.find k = some v :=
  ⟨lookup_of_mem m.sorted, mem_of_lookup⟩

@[simp] theorem mem_keys {m : OrderedMap κ ν} {k : κ} : k ∈ m.keys ↔ k ∈ m := by
  rw [keys, List.mem_map, mem_iff]
  constructor
  · rintro ⟨⟨k', v⟩, he, rfl⟩
    exact ⟨v, mem_entries.mp he⟩
  · rintro ⟨v, hv⟩
    exact ⟨(k, v), mem_entries.mpr hv, rfl⟩

theorem keys_pairwise (m : OrderedMap κ ν) : m.keys.Pairwise (· < ·) :=
  List.pairwise_map.mpr m.sorted

theorem keys_nodup (m : OrderedMap κ ν) : m.keys.Nodup :=
  m.keys_pairwise.imp ne_of_lt

theorem find_update (m : OrderedMap κ ν) (k b : κ) (f : Option ν → ν) :
    (m.update k f).find b = if b = k then some (f (m.find k)) else m.find b :=
  lookup_upsert m.sorted k b f

theorem find_insert (m : OrderedMap κ ν) (k b : κ) (v : ν) :
    (m.insert k v).find b = if b = k then some v else m.find b :=
  m.find_update k b _

theorem mem_update {m : OrderedMap κ ν} {k b : κ} {f : Option ν → ν} :
    b ∈ m.update k f ↔ b = k ∨ b ∈ m := by
  simp only [mem_iff, find_update]
  by_cases h : b = k
  · simp [h]
  · simp [h]

@[simp] theorem mem_insert {m : OrderedMap κ ν} {k b : κ} {v : ν} :
    b ∈ m.insert k v ↔ b = k ∨ b ∈ m := mem_update

@[simp] theorem mem_filter {m : OrderedMap κ ν} {p : κ → Bool} {b : κ} :
    b ∈ m.filter p ↔ p b = true ∧ b ∈ m := by
  rw [← mem_keys, ← mem_keys, keys, keys, filter]
  simp only [List.mem_map, List.mem_filter]
  constructor
  · rintro ⟨e, ⟨he, hp⟩, rfl⟩
    exact ⟨hp, e, he, rfl⟩
  · rintro ⟨hp, e, he, rfl⟩
    exact ⟨e, ⟨he, hp⟩, rfl⟩

@[simp] theorem mem_erase {m : OrderedMap κ ν} {k b : κ} :
    b ∈ m.erase k ↔ b ≠ k ∧ b ∈ m := by
  rw [erase, mem_filter, decide_eq_true_eq]

/-- No slot at all means the empty map. -/
theorem entries_eq_nil {m : OrderedMap κ ν} : m.entries = [] ↔ ∀ k, k ∉ m := by
  constructor
  · intro h k hk
    obtain ⟨v, hv⟩ := mem_iff.mp hk
    have := mem_entries.mpr hv
    rw [h] at this
    exact absurd this List.not_mem_nil
  · intro h
    cases he : m.entries with
    | nil => rfl
    | cons e rest =>
        obtain ⟨k, v⟩ := e
        have : (k, v) ∈ m.entries := he ▸ List.mem_cons_self
        exact absurd (mem_iff.mpr ⟨v, mem_entries.mp this⟩) (h k)

/-- **MAPS ARE WHAT `find` SEES**: equal lookups make equal maps. -/
theorem ext_find {a b : OrderedMap κ ν} (h : ∀ k, a.find k = b.find k) : a = b := by
  obtain ⟨l, hl⟩ := a
  obtain ⟨l', hl'⟩ := b
  have hmem : ∀ e, e ∈ l ↔ e ∈ l' := by
    rintro ⟨k, v⟩
    have hk : lookup k l = lookup k l' := h k
    constructor
    · intro he
      exact mem_of_lookup (hk.symm.trans (lookup_of_mem hl he))
    · intro he
      exact mem_of_lookup (hk.trans (lookup_of_mem hl' he))
  have hnd : ∀ {l : List (κ × ν)}, Sorted l → l.Nodup := fun h =>
    h.imp (fun hab he => absurd (congrArg Prod.fst he) (ne_of_lt hab))
  have hperm : l.Perm l' := (List.perm_ext_iff_of_nodup (hnd hl) (hnd hl')).mpr hmem
  have : l = l' := hperm.eq_of_pairwise
    (fun a b _ _ hab hba => absurd hab (not_lt.mpr (le_of_lt hba))) hl hl'
  subst this
  rfl

/-- Sets with the same members are equal. -/
theorem ext_mem {a b : OrderedSet κ} (h : ∀ k, k ∈ a ↔ k ∈ b) : a = b := by
  apply ext_find
  intro k
  have := h k
  rw [mem_iff, mem_iff] at this
  cases ha : a.find k with
  | none =>
      cases hb : b.find k with
      | none => rfl
      | some u =>
          obtain ⟨v, hv⟩ := this.mpr ⟨u, hb⟩
          rw [ha] at hv
          cases hv
  | some u =>
      obtain ⟨v, hv⟩ := this.mp ⟨u, ha⟩
      rw [hv]

/-! ## Folds that rewrite a map -/

/-- Inserting a list of keys into a set. -/
theorem mem_foldl_insert {l : List κ} {s : OrderedSet κ} {b : κ} :
    b ∈ l.foldl (fun s k => s.insert k ()) s ↔ b ∈ l ∨ b ∈ s := by
  induction l generalizing s with
  | nil => simp
  | cons k rest ih =>
      rw [List.foldl_cons, ih, mem_insert, List.mem_cons]
      tauto

/-- Inserting the keys of those elements of a list that pass a test. -/
theorem mem_foldl_insert_if {α : Type} (key : α → κ) (p : α → Prop) [DecidablePred p]
    {l : List α} {s : OrderedSet κ} {b : κ} :
    b ∈ l.foldl (fun s i => if p i then s.insert (key i) () else s) s ↔
      b ∈ s ∨ ∃ i ∈ l, p i ∧ key i = b := by
  induction l generalizing s with
  | nil => simp
  | cons i rest ih =>
      rw [List.foldl_cons, ih]
      constructor
      · rintro (h | ⟨j, hj, hp⟩)
        · by_cases hi : p i
          · rw [if_pos hi, mem_insert] at h
            rcases h with rfl | h
            · exact Or.inr ⟨i, List.mem_cons_self, hi, rfl⟩
            · exact Or.inl h
          · rw [if_neg hi] at h
            exact Or.inl h
        · exact Or.inr ⟨j, List.mem_cons_of_mem _ hj, hp⟩
      · rintro (h | ⟨j, hj, hp, rfl⟩)
        · left
          by_cases hi : p i
          · rw [if_pos hi]
            exact mem_insert.mpr (Or.inr h)
          · rw [if_neg hi]
            exact h
        · rcases List.mem_cons.mp hj with rfl | hj
          · left
            rw [if_pos hp]
            exact mem_insert.mpr (Or.inl rfl)
          · exact Or.inr ⟨j, hj, hp, rfl⟩

/-- Copying those slots of a list that pass a test, each changed by a function. -/
theorem find_foldl_copy {p : ν → Prop} [DecidablePred p] {f : ν → ν} {l : List (κ × ν)}
    {m : OrderedMap κ ν} {b : κ} (hl : (l.map Prod.fst).Nodup) :
    (l.foldl (fun m e => if p e.2 then m.insert e.1 (f e.2) else m) m).find b =
      (lookup b l).elim (m.find b) (fun v => if p v then some (f v) else m.find b) := by
  induction l generalizing m with
  | nil => rfl
  | cons e rest ih =>
      obtain ⟨k, v⟩ := e
      obtain ⟨hk, hrest⟩ := List.nodup_cons.mp hl
      rw [List.foldl_cons, ih hrest, lookup]
      by_cases hb : b = k
      · subst hb
        have hnone : lookup b rest = none := by
          cases h : lookup b rest with
          | none => rfl
          | some w => exact absurd (List.mem_map.mpr ⟨_, mem_of_lookup h, rfl⟩) hk
        rw [if_pos rfl, hnone]
        by_cases hp : p v
        · simp only [Option.elim_none, Option.elim_some, if_pos hp, find_insert, if_true]
        · simp only [Option.elim_none, Option.elim_some, if_neg hp]
      · rw [if_neg hb]
        have hsame : (if p v then m.insert k (f v) else m).find b = m.find b := by
          by_cases hp : p v
          · rw [if_pos hp, find_insert, if_neg hb]
          · rw [if_neg hp]
        simp only [hsame]

/-- Joining a list of slots into a map one after the other. -/
theorem find_foldl_update {g : Option ν → ν → ν} {l : List (κ × ν)} {m : OrderedMap κ ν}
    {b : κ} (hl : (l.map Prod.fst).Nodup) :
    (l.foldl (fun m e => m.update e.1 (fun o => g o e.2)) m).find b =
      (lookup b l).elim (m.find b) (fun v => some (g (m.find b) v)) := by
  induction l generalizing m with
  | nil => rfl
  | cons e rest ih =>
      obtain ⟨k, v⟩ := e
      obtain ⟨hk, hrest⟩ := List.nodup_cons.mp hl
      rw [List.foldl_cons, ih hrest, lookup]
      by_cases hb : b = k
      · subst hb
        have hnone : lookup b rest = none := by
          cases h : lookup b rest with
          | none => rfl
          | some w => exact absurd (List.mem_map.mpr ⟨_, mem_of_lookup h, rfl⟩) hk
        rw [if_pos rfl, hnone]
        simp only [Option.elim_none, Option.elim_some, find_update, if_true]
      · rw [if_neg hb]
        simp only [find_update, if_neg hb]

end OrderedMap

end PbOrderedMap
