import PetaBricks.TransitionProofs
import Mathlib.Logic.Function.Basic
import Mathlib.Order.Nat

/-! # The cache of scratch copies

    A region handler keeps, by the hash of a request's bytes, the last scratch region it filled
    for such a request, with the version of the process at that time.  The version is handed to
    `isValid` as a `bool`, and a copy is kept only for a caller that leaves no place for
    switched region data.

    A region's values, what a request asks of them, the hash, and the requests that are served
    by switching to the data of one part are parameters.  A run is any sequence of version
    increments, writes to the region and local copies; each local copy has a scratch region of
    its own, as `localCopy` allocates it. -/

namespace PbSubRegionCache

open PbTransition

/-! ## Versions -/

/-- `SubRegionCacheManager::isValid`, whose parameter is a `bool`. -/
def isValidVersion (cacheVersion : Bool) (version : Nat) : Bool :=
  (if cacheVersion then 1 else 0) = version

/-- `RegionHandlerCacheItem`: the scratch regions are numbered. -/
structure CacheItem (Msg : Type) where
  buf : Msg
  version : Nat
  handler : Nat

namespace CacheItem

variable {Msg : Type} [DecidableEq Msg]

def isEqual (t : CacheItem Msg) (buf : Msg) : Bool := t.buf = buf

/-- A `long` that becomes a `bool` is true unless it is zero. -/
def isValid (t : CacheItem Msg) (buf : Msg) (version : Nat) : Bool :=
  if t.isEqual buf then isValidVersion (t.version ≠ 0) version else false

end CacheItem

/-- **WHAT IS NOT FROM THE FUTURE IS VALID** at its own version, if that is the first or the
    second, and at no other. -/
theorem isValidVersion_iff {cached version : Nat} (h : cached ≤ version) :
    isValidVersion (cached ≠ 0) version = true ↔ cached = version ∧ version < 2 := by
  by_cases hc : cached = 0
  · subst hc
    simp only [isValidVersion, ne_eq, not_true_eq_false, decide_false, Bool.false_eq_true,
      if_false, decide_eq_true_eq]
    omega
  · simp only [isValidVersion, ne_eq, hc, not_false_eq_true, decide_true, if_true,
      decide_eq_true_eq]
    omega

/-! ## Region handlers -/

/-- The parameters: `requested` is what a request reads, `switches` whether it is served by the
    data of one part. -/
structure Setting (Msg Hash Data Values : Type) where
  hash : Msg → Hash
  requested : Data → Msg → Values
  switches : Data → Msg → Bool

/-- A copy made in the past: the request, the version and the region's data then, the scratch
    region, and whether the caller left no place for region data. -/
structure Copy (Msg Data : Type) where
  msg : Msg
  version : Nat
  data : Data
  handler : Nat
  kept : Bool

/-- The region, the cache of its handler and the scratch regions.  `copies` only records what
    happened, the last copy first. -/
structure State (Msg Hash Data Values : Type) where
  version : Nat
  data : Data
  cache : Hash → Option (CacheItem Msg)
  storages : List (Option Values)
  copies : List (Copy Msg Data)

inductive Event (Msg Data : Type)
  | incVersion
  | write (data : Data)
  | localCopy (msg : Msg) (newScratchRegionData : Bool)

variable {Msg Hash Data Values : Type} [DecidableEq Msg] [DecidableEq Hash]

namespace State

variable (S : Setting Msg Hash Data Values) (s : State Msg Hash Data Values)

/-- What is found in the cache. -/
def lookup (msg : Msg) : Option Nat :=
  match s.cache (S.hash msg) with
  | some t => if t.isValid msg s.version then some t.handler else none
  | none => none

/-- `copyToScratchMatrixStorage` asserts that there is a place for switched region data. -/
def copyToScratchMatrixStorage (msg : Msg) (scratchHandler : Nat) (newScratchRegionData : Bool) :
    Option (State Msg Hash Data Values) :=
  if S.switches s.data msg then
    if newScratchRegionData then some s else none
  else
    some { s with
      storages := s.storages.set scratchHandler (some (S.requested s.data msg))
      copies := ⟨msg, s.version, s.data, scratchHandler, !newScratchRegionData⟩ :: s.copies }

/-- `copyToScratchMatrixStorageCache`: `newScratchRegionData` says whether the pointer given is
    not null.  The handler returned is that of a hit. -/
def copyToScratchMatrixStorageCache (msg : Msg) (scratchHandler : Nat)
    (newScratchRegionData : Bool) : Option (Option Nat × State Msg Hash Data Values) :=
  match s.lookup S msg with
  | some handler => some (some handler, s)
  | none =>
      (s.copyToScratchMatrixStorage S msg scratchHandler newScratchRegionData).map fun t =>
        -- the pointer is tested, not what it points to
        if newScratchRegionData then (none, t)
        else (none, { t with
          cache := Function.update t.cache (S.hash msg) (some ⟨msg, s.version, scratchHandler⟩) })

/-- `localCopy` allocates a scratch region first. -/
def localCopy (msg : Msg) (newScratchRegionData : Bool) : Option (State Msg Hash Data Values) :=
  (copyToScratchMatrixStorageCache S { s with storages := s.storages ++ [none] } msg
    s.storages.length newScratchRegionData).map Prod.snd

end State

/-- **THE SYSTEM.** -/
def cacheSystem (S : Setting Msg Hash Data Values) :
    System (State Msg Hash Data Values) (Event Msg Data) where
  init s := s.version = 0 ∧ s.cache = (fun _ => none) ∧ s.copies = []
  next s
    | .incVersion => some { s with version := s.version + 1 }
    | .write data => some { s with data := data }
    | .localCopy msg newScratchRegionData => s.localCopy S msg newScratchRegionData

variable {S : Setting Msg Hash Data Values} {s t : State Msg Hash Data Values}

/-! ## The invariant -/

/-- The last copy kept for a request with this hash. -/
def State.lastKept (S : Setting Msg Hash Data Values) (s : State Msg Hash Data Values)
    (k : Hash) : Option (Copy Msg Data) :=
  s.copies.find? fun c => c.kept && S.hash c.msg = k

/-- Copies are not from the future and still in their storages, and the cache holds the last one
    kept for each hash. -/
structure Consistent (S : Setting Msg Hash Data Values) (s : State Msg Hash Data Values) :
    Prop where
  version : ∀ c ∈ s.copies, c.version ≤ s.version
  storage : ∀ c ∈ s.copies, s.storages[c.handler]? = some (some (S.requested c.data c.msg))
  cache : ∀ k, s.cache k = (s.lastKept S k).map fun c => ⟨c.msg, c.version, c.handler⟩

/-- What a local copy can do: nothing but allocate, if there is a hit or the region data is
    switched, or one copy. -/
theorem localCopy_cases {msg : Msg} {pointer : Bool} (h : s.localCopy S msg pointer = some t) :
    t = { s with storages := s.storages ++ [none] }
      ∨ t = { s with
          storages := s.storages ++ [some (S.requested s.data msg)]
          copies := ⟨msg, s.version, s.data, s.storages.length, !pointer⟩ :: s.copies
          cache := if pointer then s.cache else
            Function.update s.cache (S.hash msg) (some ⟨msg, s.version, s.storages.length⟩) } := by
  obtain ⟨⟨r, t'⟩, hcopy, rfl⟩ := Option.map_eq_some_iff.mp h
  rw [State.copyToScratchMatrixStorageCache] at hcopy
  cases hlookup : State.lookup S { s with storages := s.storages ++ [none] } msg with
  | some handler =>
      rw [hlookup] at hcopy
      cases hcopy
      exact .inl rfl
  | none =>
      rw [hlookup] at hcopy
      obtain ⟨u, hu, hr⟩ := Option.map_eq_some_iff.mp hcopy
      rw [State.copyToScratchMatrixStorage] at hu
      cases hswitch : S.switches s.data msg with
      | true =>
          cases pointer with
          | true =>
              rw [if_pos hswitch, if_pos rfl] at hu
              cases hu
              cases hr
              exact .inl rfl
          | false =>
              rw [if_pos hswitch, if_neg Bool.false_ne_true] at hu
              cases hu
      | false =>
          rw [if_neg (by rw [hswitch]; exact Bool.false_ne_true)] at hu
          cases hu
          have hset : (s.storages ++ [none]).set s.storages.length
              (some (S.requested s.data msg)) = s.storages ++ [some (S.requested s.data msg)] := by
            rw [List.set_append_right _ _ le_rfl, Nat.sub_self]
            rfl
          refine .inr ?_
          cases pointer <;> cases hr <;> simp only [hset] <;> rfl

/-- A new scratch region leaves the others alone. -/
theorem getElem?_concat {α : Type} {l : List α} {i : Nat} {x : α} (h : l[i]? = some x) (y : α) :
    (l ++ [y])[i]? = some x := by
  obtain ⟨hi, -⟩ := List.getElem?_eq_some_iff.mp h
  rw [List.getElem?_append_left hi, h]

theorem Consistent.localCopy (h : Consistent S s) {msg : Msg} {pointer : Bool}
    (ht : s.localCopy S msg pointer = some t) : Consistent S t := by
  obtain rfl | rfl := localCopy_cases ht
  · exact ⟨h.version, fun c hc => getElem?_concat (h.storage c hc) _, h.cache⟩
  · refine ⟨fun c hc => ?_, fun c hc => ?_, fun k => ?_⟩
    · rcases List.mem_cons.mp hc with rfl | hc
      · exact le_rfl
      · exact h.version c hc
    · rcases List.mem_cons.mp hc with rfl | hc
      · show (s.storages ++ [some (S.requested s.data msg)])[s.storages.length]? = _
        rw [List.getElem?_append_right le_rfl, Nat.sub_self]
        rfl
      · exact getElem?_concat (h.storage c hc) _
    · cases pointer with
      | true => exact h.cache k
      | false =>
          show Function.update s.cache (S.hash msg) _ k = _
          by_cases hk : S.hash msg = k
          · subst hk
            rw [Function.update_self]
            simp [State.lastKept]
          · rw [Function.update_of_ne (Ne.symm hk), h.cache k]
            simp [State.lastKept, hk]

theorem reachable_consistent (h : Reachable (cacheSystem S) s) : Consistent S s := by
  refine h.invariant (Consistent S) ?_ ?_
  · rintro s ⟨-, hcache, hcopies⟩
    refine ⟨fun c hc => ?_, fun c hc => ?_, fun k => ?_⟩
    · rw [hcopies] at hc
      cases hc
    · rw [hcopies] at hc
      cases hc
    · rw [hcache, State.lastKept, hcopies]
      rfl
  · intro s a t hs ht
    cases a with
    | incVersion =>
        cases ht
        exact ⟨fun c hc => Nat.le_succ_of_le (hs.version c hc), hs.storage, hs.cache⟩
    | write data =>
        cases ht
        exact ⟨hs.version, hs.storage, hs.cache⟩
    | localCopy msg pointer => exact hs.localCopy ht

/-! ## Hits -/

/-- The result of a lookup is what the cache holds, whatever else the call does. -/
theorem result_eq {msg : Msg} {scratch : Nat} {pointer : Bool} {r : Option Nat}
    (h : s.copyToScratchMatrixStorageCache S msg scratch pointer = some (r, t)) :
    r = s.lookup S msg := by
  rw [State.copyToScratchMatrixStorageCache] at h
  cases hlookup : s.lookup S msg with
  | some handler =>
      rw [hlookup] at h
      cases h
      rfl
  | none =>
      rw [hlookup] at h
      obtain ⟨u, -, hr⟩ := Option.map_eq_some_iff.mp h
      cases pointer <;> cases hr <;> rfl

/-- A caller with a place for region data always gets an answer. -/
theorem exists_result (S : Setting Msg Hash Data Values) (s : State Msg Hash Data Values)
    (msg : Msg) (scratch : Nat) :
    ∃ t, s.copyToScratchMatrixStorageCache S msg scratch true = some (s.lookup S msg, t) := by
  rw [State.copyToScratchMatrixStorageCache]
  cases hlookup : s.lookup S msg with
  | some handler => exact ⟨s, rfl⟩
  | none =>
      cases hswitch : S.switches s.data msg with
      | true =>
          rw [State.copyToScratchMatrixStorage, if_pos hswitch, if_pos rfl]
          exact ⟨_, rfl⟩
      | false =>
          rw [State.copyToScratchMatrixStorage,
            if_neg (by rw [hswitch]; exact Bool.false_ne_true)]
          exact ⟨_, rfl⟩

/-- **A HIT IS THE LAST COPY KEPT**, made for this request, at the current version, the first or
    the second. -/
theorem lookup_eq_some_iff (h : Consistent S s) {msg : Msg} {handler : Nat} :
    s.lookup S msg = some handler ↔ s.version < 2 ∧ ∃ c, s.lastKept S (S.hash msg) = some c
      ∧ c.msg = msg ∧ c.version = s.version ∧ c.handler = handler := by
  rw [State.lookup, h.cache]
  cases hlast : s.lastKept S (S.hash msg) with
  | none =>
      constructor
      · intro hn
        cases hn
      · rintro ⟨-, c, hc, -⟩
        cases hc
  | some c =>
      -- no copy is younger than the matrix, so that only the bound of 2 is left of the version test
      have hle : c.version ≤ s.version := h.version c (List.mem_of_find?_eq_some hlast)
      have hvalid : (CacheItem.mk c.msg c.version c.handler).isValid msg s.version = true
          ↔ c.msg = msg ∧ c.version = s.version ∧ s.version < 2 := by
        rw [CacheItem.isValid, CacheItem.isEqual]
        by_cases hm : c.msg = msg
        · rw [if_pos (decide_eq_true hm), isValidVersion_iff hle]
          exact ⟨fun h => ⟨hm, h⟩, fun h => h.2⟩
        · rw [if_neg (by simpa using hm)]
          exact ⟨fun h => Bool.noConfusion h, fun h => absurd h.1 hm⟩
      show (if (CacheItem.mk c.msg c.version c.handler).isValid msg s.version then some c.handler
        else none) = some handler ↔ _
      constructor
      · intro hif
        by_cases hv : (CacheItem.mk c.msg c.version c.handler).isValid msg s.version = true
        · rw [if_pos hv] at hif
          obtain ⟨hm, hver, hlt⟩ := hvalid.mp hv
          exact ⟨hlt, c, rfl, hm, hver, Option.some.inj hif⟩
        · rw [if_neg hv] at hif
          cases hif
      · rintro ⟨hlt, c', hc', hm, hver, hh⟩
        cases hc'
        rw [if_pos (hvalid.mpr ⟨hm, hver, hlt⟩), hh]

/-! ## The result -/

/-- A copy for this request was made at the current version. -/
def State.Copied (s : State Msg Hash Data Values) (msg : Msg) : Prop :=
  ∃ c ∈ s.copies, c.msg = msg ∧ c.version = s.version

/-- What a lookup should do: hit exactly if a copy for the same request was made at the current
    version, and then return a storage with what the region held at that time. -/
structure State.LookupCorrect (S : Setting Msg Hash Data Values)
    (s : State Msg Hash Data Values) (msg : Msg) : Prop where
  hit : ∀ scratch pointer r t,
    s.copyToScratchMatrixStorageCache S msg scratch pointer = some (r, t) →
      (r.isSome ↔ s.Copied msg)
  values : ∀ scratch pointer handler t,
    s.copyToScratchMatrixStorageCache S msg scratch pointer = some (some handler, t) →
      ∃ c ∈ s.copies, c.msg = msg ∧ c.version = s.version
        ∧ s.storages[handler]? = some (some (S.requested c.data msg))

/-- **NEVER STALE**: in every run, whatever a lookup returns was made for this request at the
    current version, and is still there. -/
theorem never_stale (h : Reachable (cacheSystem S) s) {msg : Msg} {scratch handler : Nat}
    {pointer : Bool}
    (hr : s.copyToScratchMatrixStorageCache S msg scratch pointer = some (some handler, t)) :
    ∃ c ∈ s.copies, c.msg = msg ∧ c.version = s.version
      ∧ s.storages[handler]? = some (some (S.requested c.data msg)) := by
  have hcons := reachable_consistent h
  obtain ⟨-, c, hlast, hm, hver, rfl⟩ := (lookup_eq_some_iff hcons).mp (result_eq hr).symm
  have hmem := List.mem_of_find?_eq_some hlast
  refine ⟨c, hmem, hm, hver, ?_⟩
  rw [hcons.storage c hmem, hm]

/-- A region of one cell, requests that are their own hash, and no switching. -/
def oneCell : Setting (List UInt8) (List UInt8) Int Int where
  hash := id
  requested data _ := data
  switches _ _ := false

def oneCellStart : State (List UInt8) (List UInt8) Int Int :=
  ⟨0, 7, fun _ => none, [], []⟩

theorem oneCell_reachable {s : State (List UInt8) (List UInt8) Int Int}
    (events : List (Event (List UInt8) Int))
    (h : exec (cacheSystem oneCell) oneCellStart events = some s) :
    Reachable (cacheSystem oneCell) s :=
  .of_exec ⟨rfl, rfl, rfl⟩ h

/-- A lookup that misses what was copied at this version. -/
theorem not_correct_of_miss {S : Setting Msg Hash Data Values} {s : State Msg Hash Data Values}
    {msg : Msg} (hcopied : s.Copied msg) (hmiss : s.lookup S msg = none) :
    ¬ s.LookupCorrect S msg := by
  intro hcorrect
  obtain ⟨t, ht⟩ := exists_result S s msg 0
  have hsome := (hcorrect.hit _ _ _ _ ht).mpr hcopied
  rw [hmiss] at hsome
  cases hsome

end PbSubRegionCache
