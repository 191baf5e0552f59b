import Mathlib.Data.List.Induction
import Mathlib.Data.List.Sort
import Mathlib.Data.Rat.Defs
import Mathlib.Algebra.Order.Ring.Rat
import Mathlib.Algebra.BigOperators.Group.List.Basic

/-! # The heuristic data base — `HeuristicDB`

    The table `Heuristic` has a row for each kind and formula.  A candidate's heuristics get
    its score first and are marked as used after that; each pass inserts the row that it does
    not find, with a use count of one.  So the pass for the scores counts the first use of a
    heuristic, and the second pass counts it again.

    A kind's id stands for its name, which is unique. -/

namespace PbHeuristicDB

/-- The name of the kind, and the formula. -/
abbrev Key := String × String

structure Row where
  key : Key
  useCount : ℕ
  score : ℚ
  deriving DecidableEq

abbrev Table := List Row

/-- `HeuristicSet`, a dictionary from names to formulas. -/
structure HeuristicSet where
  entries : List Key
  names_nodup : (entries.map Prod.fst).Nodup

/-- `HeuristicDB`: the table, and the cache, which does not outlive the process. -/
structure HeuristicDB where
  table : Table
  bestNCache : List (String × List String)

/-! ## Updates -/

/-- An `UPDATE` of the rows with a key, and the `INSERT` if there are none. -/
def upsert (f : Row → Row) (new : Row) (t : Table) : Table :=
  if t.any fun r => r.key = new.key then t.map fun r => if r.key = new.key then f r else r
  else t ++ [new]

def increaseHeuristicScore (score : ℚ) (t : Table) (key : Key) : Table :=
  upsert (fun r => { r with score := r.score + score }) ⟨key, 1, score⟩ t

def increaseHeuristicUseCount (t : Table) (key : Key) : Table :=
  upsert (fun r => { r with useCount := r.useCount + 1 }) ⟨key, 1, 0⟩ t

def increaseScore (t : Table) (hSet : HeuristicSet) (score : ℚ) : Table :=
  hSet.entries.foldl (increaseHeuristicScore score) t

def markAsUsed (t : Table) (hSet : HeuristicSet) : Table :=
  hSet.entries.foldl increaseHeuristicUseCount t

/-- `storeCandidatesDataInDB` from a count on, with the heuristics of the candidates' info
    files; it raises an exception at `None`. -/
def storeCandidatesDataInDB (numCandidates count : ℕ) (t : Table) :
    List (Option HeuristicSet) → Table
  | [] => t
  | none :: _ => t
  | some hSet :: cs =>
      let score : ℚ := (numCandidates - count) / numCandidates
      storeCandidatesDataInDB numCandidates (count + 1)
        (markAsUsed (increaseScore t hSet score) hSet) cs

/-! ## Queries -/

/-- `score/useCount`. -/
def Row.ratio (r : Row) : ℚ := r.score / r.useCount

/-- `LIMIT N`, where a negative number is no limit. -/
def limit {α : Type} (N : ℤ) (l : List α) : List α := if N < 0 then l else l.take N.toNat

/-- The rows of a kind in descending order of the ratio. -/
def selectFormulas (t : Table) (name : String) (N : ℤ) : List String :=
  limit N (((t.filter fun r => r.key.1 = name).insertionSort fun a b => b.ratio ≤ a.ratio).map
    fun r => r.key.2)

def getBestNHeuristics (db : HeuristicDB) (name : String) (N : ℤ) : List String × HeuristicDB :=
  match db.bestNCache.lookup name with
  | some cached => (cached, db)
  | none =>
      let result := selectFormulas db.table name N
      (result, { db with bestNCache := (name, result) :: db.bestNCache })

/-! ## Histories -/

/-- What is done with the data base; a new process starts with an empty cache. -/
inductive Op
  | store (candidates : List (Option HeuristicSet))
  | query (name : String) (N : ℤ)
  | reopen

def exec (db : HeuristicDB) : Op → HeuristicDB
  | .store cs => { db with table := storeCandidatesDataInDB cs.length 0 db.table cs }
  | .query name N => (getBestNHeuristics db name N).2
  | .reopen => { db with bestNCache := [] }

/-- The data base after a history that begins with none. -/
def after (h : List Op) : HeuristicDB := h.foldl exec ⟨[], []⟩

/-! ## What is asked -/

/-- The sets that are read, each with its score. -/
def scored (numCandidates count : ℕ) : List (Option HeuristicSet) → List (HeuristicSet × ℚ)
  | [] => []
  | none :: _ => []
  | some hSet :: cs =>
      (hSet, ((numCandidates : ℚ) - count) / numCandidates) :: scored numCandidates (count + 1) cs

def Op.credits : Op → List (HeuristicSet × ℚ)
  | .store cs => scored cs.length 0 cs
  | _ => []

/-- The candidates whose info listed a heuristic. -/
def listing (cs : List (HeuristicSet × ℚ)) (key : Key) : List (HeuristicSet × ℚ) :=
  cs.filter fun c => key ∈ c.1.entries

/-- How many there were, and the sum of their scores. -/
def listed (h : List Op) (key : Key) : ℕ := (listing (h.flatMap Op.credits) key).length

def total (h : List Op) (key : Key) : ℚ := ((listing (h.flatMap Op.credits) key).map Prod.snd).sum

/-- The row of a key, or an empty one. -/
def find (t : Table) (key : Key) : Option Row := t.find? fun r => r.key = key

def rowOf (t : Table) (key : Key) : Row := (find t key).getD ⟨key, 0, 0⟩

/-- The first `N` of the listed formulas of a kind by the mean score. -/
def IsBest (h : List Op) (name : String) (N : ℤ) (result : List String) : Prop :=
  ∃ formulas : List String, formulas.Nodup ∧ (∀ f, f ∈ formulas ↔ 0 < listed h (name, f)) ∧
    formulas.Pairwise (fun f g =>
      total h (name, g) / listed h (name, g) ≤ total h (name, f) / listed h (name, f)) ∧
    result = limit N formulas

/-- After every part of the history the use counts and scores are those of the candidates, and
    each query is answered by the mean scores of its time. -/
def Averages (h : List Op) : Prop :=
  (∀ before rest, h = before ++ rest → ∀ key,
    (rowOf (after before).table key).useCount = listed before key ∧
    (rowOf (after before).table key).score = total before key) ∧
  ∀ before name N rest, h = before ++ .query name N :: rest →
    IsBest before name N (getBestNHeuristics (after before) name N).1

/-! ## One update -/

theorem find_eq_none_iff {t : Table} {key : Key} :
    find t key = none ↔ (t.any fun r => r.key = key) = false := by
  rw [find, List.find?_eq_none, List.any_eq_false]

theorem find_upsert {f : Row → Row} (hf : ∀ r, (f r).key = r.key) (new : Row) (t : Table)
    (key : Key) : find (upsert f new t) key =
      if key = new.key then some ((find t key).elim new f) else find t key := by
  rw [upsert]
  split
  · next hany =>
      have hmap : ∀ t : Table, find (t.map fun r => if r.key = new.key then f r else r) key =
          if key = new.key then (find t key).map f else find t key := by
        intro t
        induction t with
        | nil => simp [find]
        | cons r t ih =>
            simp only [find, List.map_cons, List.find?_cons] at ih ⊢
            by_cases hr : r.key = new.key
            · by_cases hk : key = new.key
              · simp [hr, hk, hf]
              · have hk' : ¬ new.key = key := fun h => hk h.symm
                simp [hr, hk, hk', hf, ih]
            · by_cases hrk : r.key = key
              · have hk : ¬ key = new.key := fun h => hr (hrk.trans h)
                simp [hrk, hk]
              · simp [hr, hrk, ih]
      rw [hmap]
      by_cases hk : key = new.key
      · rw [if_pos hk, if_pos hk]
        cases hfind : find t key with
        | some r => rfl
        | none =>
            rw [hk, find_eq_none_iff, hany] at hfind
            cases hfind
      · rw [if_neg hk, if_neg hk]
  · next hany =>
      have hnone : find t new.key = none := find_eq_none_iff.mpr (by simpa using hany)
      rw [find, List.find?_append]
      by_cases hk : key = new.key
      · have hnone' : t.find? (fun r => r.key = key) = none := hk ▸ hnone
        rw [if_pos hk, find, hnone']
        simp [hk]
      · have hk' : ¬ new.key = key := fun h => hk h.symm
        rw [if_neg hk]
        simp [hk', find]

/-- A pass over a set updates each of its heuristics once. -/
theorem find_pass (f : Row → Row) (hf : ∀ r, (f r).key = r.key) (new : Key → Row)
    (hnew : ∀ k, (new k).key = k) {keys : List Key} (hnodup : keys.Nodup) (t : Table) (key : Key) :
    find (keys.foldl (fun t k => upsert f (new k) t) t) key =
      if key ∈ keys then some ((find t key).elim (new key) f) else find t key := by
  induction keys generalizing t with
  | nil => simp
  | cons k keys ih =>
      obtain ⟨hk, hkeys⟩ := List.nodup_cons.mp hnodup
      rw [List.foldl_cons, ih hkeys, find_upsert hf, hnew]
      by_cases heq : key = k
      · rw [if_neg (heq ▸ hk), if_pos heq, if_pos (heq ▸ List.mem_cons_self), heq]
      · rw [if_neg heq]
        by_cases hmem : key ∈ keys
        · rw [if_pos hmem, if_pos (List.mem_cons_of_mem _ hmem)]
        · rw [if_neg hmem, if_neg fun h => hmem ((List.mem_cons.mp h).resolve_left heq)]

/-- One candidate: the first use of a heuristic is counted by both passes. -/
theorem find_candidate (t : Table) (hSet : HeuristicSet) (score : ℚ) (key : Key) :
    find (markAsUsed (increaseScore t hSet score) hSet) key =
      if key ∈ hSet.entries then some ((find t key).elim ⟨key, 2, score⟩ fun r =>
        ⟨r.key, r.useCount + 1, r.score + score⟩) else find t key := by
  have hnodup : hSet.entries.Nodup := List.Nodup.of_map _ hSet.names_nodup
  have hscore : find (increaseScore t hSet score) key = if key ∈ hSet.entries then
      some ((find t key).elim ⟨key, 1, score⟩ fun r => { r with score := r.score + score })
      else find t key :=
    find_pass (fun r => { r with score := r.score + score }) (fun _ => rfl)
      (fun k => ⟨k, 1, score⟩) (fun _ => rfl) hnodup t key
  have hused : find (markAsUsed (increaseScore t hSet score) hSet) key =
      if key ∈ hSet.entries then some ((find (increaseScore t hSet score) key).elim ⟨key, 1, 0⟩
        fun r => { r with useCount := r.useCount + 1 }) else find (increaseScore t hSet score) key :=
    find_pass (fun r => { r with useCount := r.useCount + 1 }) (fun _ => rfl)
      (fun k => ⟨k, 1, 0⟩) (fun _ => rfl) hnodup _ key
  rw [hused, hscore]
  by_cases hmem : key ∈ hSet.entries
  · rw [if_pos hmem, if_pos hmem, if_pos hmem]
    cases find t key <;> rfl
  · rw [if_neg hmem, if_neg hmem, if_neg hmem]

/-! ## What the table holds -/

/-- Every listed heuristic has one use too many, and all of its scores. -/
def Holds (cs : List (HeuristicSet × ℚ)) (t : Table) : Prop :=
  ∀ key, find t key = if listing cs key = [] then none else
    some ⟨key, (listing cs key).length + 1, ((listing cs key).map Prod.snd).sum⟩

theorem listing_append (cs cs' : List (HeuristicSet × ℚ)) (key : Key) :
    listing (cs ++ cs') key = listing cs key ++ listing cs' key := List.filter_append ..

theorem holds_candidate {cs : List (HeuristicSet × ℚ)} {t : Table} (h : Holds cs t)
    (hSet : HeuristicSet) (score : ℚ) :
    Holds (cs ++ [(hSet, score)]) (markAsUsed (increaseScore t hSet score) hSet) := by
  intro key
  rw [find_candidate, h key, listing_append]
  by_cases hmem : key ∈ hSet.entries
  · have hone : listing [(hSet, score)] key = [(hSet, score)] := by simp [listing, hmem]
    have hne : listing cs key ++ [(hSet, score)] ≠ [] := by simp
    rw [if_pos hmem, hone, if_neg hne]
    by_cases hnil : listing cs key = []
    · rw [if_pos hnil, hnil]
      simp
    · rw [if_neg hnil]
      simp
  · have hone : listing [(hSet, score)] key = [] := by simp [listing, hmem]
    rw [if_neg hmem, hone, List.append_nil]

theorem holds_store {cs : List (HeuristicSet × ℚ)} {t : Table} (h : Holds cs t) (n count : ℕ)
    (candidates : List (Option HeuristicSet)) :
    Holds (cs ++ scored n count candidates) (storeCandidatesDataInDB n count t candidates) := by
  induction candidates generalizing cs t count with
  | nil => rwa [scored, storeCandidatesDataInDB, List.append_nil]
  | cons c candidates ih =>
      cases c with
      | none => rwa [scored, storeCandidatesDataInDB, List.append_nil]
      | some hSet =>
          rw [scored, storeCandidatesDataInDB, List.append_cons]
          exact ih (holds_candidate h hSet _) (count + 1)

theorem table_query (db : HeuristicDB) (name : String) (N : ℤ) :
    (getBestNHeuristics db name N).2.table = db.table := by
  rw [getBestNHeuristics]
  split <;> rfl

theorem after_append (h h' : List Op) : after (h ++ h') = h'.foldl exec (after h) :=
  List.foldl_append ..

/-- **THE TABLE AFTER ANY HISTORY.** -/
theorem holds_after (h : List Op) : Holds (h.flatMap Op.credits) (after h).table := by
  induction h using List.reverseRecOn with
  | nil => exact fun key => rfl
  | append_singleton h op ih =>
      rw [after_append, List.flatMap_append, List.flatMap_singleton, List.foldl_cons,
        List.foldl_nil]
      cases op with
      | store cs => exact holds_store ih _ _ cs
      | query name N =>
          rw [exec, table_query]
          simpa [Op.credits] using ih
      | reopen => simpa [Op.credits, exec] using ih

theorem rowOf_after (h : List Op) (key : Key) :
    (rowOf (after h).table key).useCount = (if listed h key = 0 then 0 else listed h key + 1) ∧
    (rowOf (after h).table key).score = total h key := by
  have hfind := holds_after h key
  rw [rowOf, hfind, listed, total]
  by_cases hnil : listing (h.flatMap Op.credits) key = []
  · rw [if_pos hnil, hnil]
    exact ⟨rfl, rfl⟩
  · rw [if_neg hnil, if_neg (List.length_eq_zero_iff.not.mpr hnil)]
    exact ⟨rfl, rfl⟩

/-! ## When nothing is listed -/

/-- No candidate's info lists a heuristic. -/
def ListsNothing (h : List Op) : Prop := ∀ c ∈ h.flatMap Op.credits, c.1.entries = []

theorem listsNothing_iff {h : List Op} : ListsNothing h ↔ ∀ key, listed h key = 0 := by
  constructor
  · intro hnone key
    rw [listed, List.length_eq_zero_iff, listing, List.filter_eq_nil_iff]
    intro c hc hmem
    rw [hnone c hc] at hmem
    simp at hmem
  · intro hzero c hc
    refine List.eq_nil_iff_forall_not_mem.mpr fun key hkey => ?_
    have h := hzero key
    rw [listed, List.length_eq_zero_iff, listing, List.filter_eq_nil_iff] at h
    exact h c hc (by simpa using hkey)

theorem ListsNothing.before {before rest : List Op} (h : ListsNothing (before ++ rest)) :
    ListsNothing before := fun c hc =>
  h c (by rw [List.flatMap_append]; exact List.mem_append_left _ hc)

/-- Then the table stays empty and so do the answers. -/
theorem after_of_listsNothing {h : List Op} (hnone : ListsNothing h) :
    (after h).table = [] ∧ ∀ name result, (name, result) ∈ (after h).bestNCache → result = [] := by
  induction h using List.reverseRecOn with
  | nil => exact ⟨rfl, nofun⟩
  | append_singleton h op ih =>
      obtain ⟨htable, hcache⟩ := ih hnone.before
      have hempty : (after (h ++ [op])).table = [] := by
        refine List.eq_nil_iff_forall_not_mem.mpr fun r hr => ?_
        have hfind := holds_after (h ++ [op]) r.key
        have hlisted := listsNothing_iff.mp hnone r.key
        rw [listed, List.length_eq_zero_iff] at hlisted
        rw [if_pos hlisted, find, List.find?_eq_none] at hfind
        exact hfind r hr (by simp)
      refine ⟨hempty, ?_⟩
      rw [after_append, List.foldl_cons, List.foldl_nil]
      cases op with
      | store cs => exact hcache
      | reopen => exact nofun
      | query name N =>
          rw [exec, getBestNHeuristics]
          split
          · exact hcache
          · intro name' result hmem
            rcases List.mem_cons.mp hmem with heq | hmem
            · cases heq
              rw [htable]
              simp [selectFormulas, limit]
            · exact hcache name' result hmem

theorem getBestNHeuristics_of_listsNothing {h : List Op} (hnone : ListsNothing h) (name : String)
    (N : ℤ) : (getBestNHeuristics (after h) name N).1 = [] := by
  obtain ⟨htable, hcache⟩ := after_of_listsNothing hnone
  rw [getBestNHeuristics]
  split
  · next cached hlookup =>
      obtain ⟨l, r, heq, -⟩ := List.lookup_eq_some_iff.mp hlookup
      exact hcache name cached (by rw [heq]; exact List.mem_append_right _ List.mem_cons_self)
  · rw [htable]
    simp [selectFormulas, limit]

/-- **THE STATISTICS AFTER ANY HISTORY**: the scores are the sums, and the use count of every
    heuristic that was listed is one too large.  So all are averages exactly as long as
    nothing has been listed. -/
theorem averages_iff (h : List Op) :
    (∀ key, (rowOf (after h).table key).score = total h key ∧
      (rowOf (after h).table key).useCount = if listed h key = 0 then 0 else listed h key + 1) ∧
    (Averages h ↔ ListsNothing h) := by
  refine ⟨fun key => ⟨(rowOf_after h key).2, (rowOf_after h key).1⟩, ?_, ?_⟩
  · rintro ⟨hcounts, -⟩
    refine listsNothing_iff.mpr fun key => ?_
    have hcount := (hcounts h [] (List.append_nil h).symm key).1
    rw [(rowOf_after h key).1] at hcount
    by_contra hne
    rw [if_neg hne] at hcount
    omega
  · intro hnone
    constructor
    · rintro before rest rfl key
      have hzero := listsNothing_iff.mp hnone.before key
      rw [(rowOf_after before key).1, if_pos hzero, hzero]
      exact ⟨rfl, (rowOf_after before key).2⟩
    · rintro before name N rest rfl
      refine ⟨[], List.nodup_nil, fun f => ?_, .nil, ?_⟩
      · rw [listsNothing_iff.mp hnone.before]
        simp
      · rw [getBestNHeuristics_of_listsNothing hnone.before]
        simp [limit]

/-- One set with one heuristic, and one with another of the same kind. -/
def setA : HeuristicSet := ⟨[("blockNumber", "a")], by decide⟩
def setB : HeuristicSet := ⟨[("blockNumber", "b")], by decide⟩

/-- The first use counts as two; and after a query for one formula a query for two has the same
    answer, also when another formula has become the best. -/
theorem first_use_counts_twice :
    (rowOf (after [.store [some setA]]).table ("blockNumber", "a")).useCount = 2 ∧
    (getBestNHeuristics (after [.store [some setA], .query "blockNumber" 1,
      .store [some setB], .store [some setB]]) "blockNumber" 2).1 = ["a"] ∧
    ¬ ∀ h, Averages h := by
  have htwo : (rowOf (after [.store [some setA]]).table ("blockNumber", "a")).useCount = 2 := by
    decide +kernel
  refine ⟨htwo, by decide +kernel, fun hall => ?_⟩
  have hcount := ((hall [.store [some setA]]).1 [.store [some setA]] [] rfl ("blockNumber", "a")).1
  rw [htwo] at hcount
  exact absurd hcount (by decide +kernel)

end PbHeuristicDB
