import PetaBricks.MemoizationModel

/-! # A hit returns what would be computed — while nobody writes to the cached outputs

    What a computation writes to a region depends on the region's layout only,
    not on the memory it is in (`read_write`).  The invariant says that the
    cached call's outputs still hold what was computed for it, once that has
    ended (`Inv.kept`).  It is lost when a caller, another computation or a
    hit writes to them, and it is of use only to a call whose inputs differ
    from the cached ones in what is hashed, if they differ (`HitOK`).

    In a run without such steps every hit is right (`hit_right`); one write to
    an output that is still cached makes the next hit wrong
    (`overwritten_output`). -/

namespace PbMemoization

variable {E K H : Type} {count : Nat → Nat} {IN OUT : Nat}

/-! ## Writing to memory -/

section Writing

variable {d d' : Data E} {mem mem' : Nat}

theorem Data.set_of_ne {i m : Nat} {v : E} (h : m ≠ mem) : (d.set mem i v) m = d m := by
  funext j
  exact if_neg (fun hm => h hm.1)

theorem writeCells_of_ne {m : Nat} (h : m ≠ mem) {is : List Nat} {values : Nat → E} :
    (writeCells mem is values d) m = d m := by
  induction is generalizing values d with
  | nil => rfl
  | cons i is ih => rw [writeCells, ih, Data.set_of_ne h]

theorem writeCells_of_notMem {is : List Nat} {values : Nat → E} {j : Nat} (h : j ∉ is) :
    (writeCells mem is values d) mem j = d mem j := by
  induction is generalizing values d with
  | nil => rfl
  | cons i is ih =>
      obtain ⟨hne, hmem⟩ := not_or.mp (fun hj => h (List.mem_cons.mpr hj))
      rw [writeCells, ih hmem]
      exact if_neg (fun hj => hne hj.2)

/-- A cell that is written holds the same wherever it is written. -/
theorem writeCells_of_mem {is : List Nat} {values : Nat → E} {j : Nat} (h : j ∈ is) :
    (writeCells mem is values d) mem j = (writeCells mem' is values d') mem' j := by
  induction is generalizing values d d' with
  | nil => cases h
  | cons i is ih =>
      rw [writeCells, writeCells]
      by_cases hj : j ∈ is
      · exact ih hj
      · obtain rfl : j = i := (List.mem_cons.mp h).resolve_right hj
        rw [writeCells_of_notMem hj, writeCells_of_notMem hj]
        exact (if_pos ⟨rfl, rfl⟩).trans (if_pos ⟨rfl, rfl⟩).symm

end Writing

namespace Region

variable {d d' : Data E} {r r' : Region count} {values : Nat → E}

theorem write_of_ne {m : Nat} (h : m ≠ r.mem) : (r.write values d) m = d m :=
  writeCells_of_ne h

/-- Regions of one layout. -/
theorem read_congr (hmeta : r.metadata = r'.metadata)
    (h : ∀ j ∈ r.metadata.indices, d r.mem j = d' r'.mem j) : r.read d = r'.read d' := by
  rw [read, read, ← hmeta]
  exact List.map_congr_left h

/-- **WHAT WAS WRITTEN IS READ**, wherever it was written. -/
theorem read_write (hmeta : r.metadata = r'.metadata) :
    r.read (r.write values d) = r'.read (r'.write values d') := by
  refine read_congr hmeta fun j hj => ?_
  rw [write, write, ← hmeta]
  exact writeCells_of_mem hj

theorem read_of_mem_eq (h : d r.mem = d' r.mem) : r.read d = r.read d' :=
  read_congr rfl fun j _ => congrFun h j

end Region

/-- No two outputs are in one storage. -/
def Distinct (outputs : Fin OUT → Region count) : Prop :=
  ∀ i j, (outputs i).mem = (outputs j).mem → i = j

/-- The outputs that a list of writes does not reach. -/
theorem foldl_write_of_ne {outputs : Fin OUT → Region count} {results : Fin OUT → Nat → E}
    {l : List (Fin OUT)} {m : Nat} {d : Data E} (h : ∀ i ∈ l, m ≠ (outputs i).mem) :
    (l.foldl (fun d i => (outputs i).write (results i) d) d) m = d m := by
  induction l generalizing d with
  | nil => rfl
  | cons i l ih =>
      rw [List.foldl_cons, ih (fun i hi => h i (List.mem_cons_of_mem _ hi)),
        Region.write_of_ne (h i (List.mem_cons_self ..))]

/-- **A COMPUTATION THAT HAS ENDED** leaves in each output what it computed for it. -/
theorem Job.read_finish {j : Job E count OUT} (h : Distinct j.outputs) (i : Fin OUT) (d : Data E) :
    (j.outputs i).read (j.finish d) = (j.outputs i).read ((j.outputs i).write (j.results i) d) := by
  have key : ∀ (l : List (Fin OUT)) (d : Data E), l.Nodup → i ∈ l →
      (j.outputs i).read (l.foldl (fun d i => (j.outputs i).write (j.results i) d) d) =
        (j.outputs i).read ((j.outputs i).write (j.results i) d) := by
    intro l
    induction l with
    | nil => exact fun _ _ hi => nomatch hi
    | cons k l ih =>
        intro d hnodup hi
        obtain ⟨hk, hnodup⟩ := List.nodup_cons.mp hnodup
        rw [List.foldl_cons]
        by_cases hil : i ∈ l
        · rw [ih _ hnodup hil]
          exact Region.read_write rfl
        · obtain rfl : i = k := (List.mem_cons.mp hi).resolve_right hil
          refine Region.read_of_mem_eq (foldl_write_of_ne fun i' hi' heq => ?_)
          exact hk (h _ _ heq ▸ hi')
  exact key _ d (List.nodup_finRange OUT) (List.mem_finRange i)

theorem Job.finish_of_ne {j : Job E count OUT} {m : Nat} {d : Data E}
    (h : ∀ i, m ≠ (j.outputs i).mem) : (j.finish d) m = d m :=
  foldl_write_of_ne fun i _ => h i

/-! ## When a hit is right -/

section Site

variable {el : Elements E K H} {compute : Compute E IN OUT} {c : Call E count IN OUT}
  {s : State E H count IN OUT} {last : MemoizationInstance E H count IN OUT} {d d' : Data E}

/-- Inputs that are the same where they are hashed the same.  An input is a number in all calls, or
    a matrix in all. -/
def Input.Distinguished (el : Elements E K H) (d d' : Data E) :
    Input E count → Input E count → Prop
  | .scalar v, .scalar v' => el.eq v v' = true → v = v'
  | .region r, .region r' => r.hasStorage = true ∧ r'.hasStorage = true ∧
      ((d.contents r.mem (count r.mem)).map el.toFloat =
        (d'.contents r'.mem (count r'.mem)).map el.toFloat →
        d.contents r.mem (count r.mem) = d'.contents r'.mem (count r'.mem))
  | _, _ => False

/-- A call that the cached call answers rightly: that one has ended, its inputs are distinguished
    from those of this one, all outputs are in storages, and no two outputs of the two calls in
    one storage but the same output of both. -/
structure HitOK (el : Elements E K H) (c : Call E count IN OUT) (s : State E H count IN OUT)
    (last : MemoizationInstance E H count IN OUT) : Prop where
  ended : ∀ j ∈ s.jobs, j.number ≠ last.number
  distinguished : ∀ i, (c.inputs i).Distinguished el s.data last.data (last.call.inputs i)
  storage : ∀ i, (c.outputs i).hasStorage = true ∧ (last.call.outputs i).hasStorage = true
  distinct : Distinct c.outputs
  apart : ∀ i j, (c.outputs i).mem = (last.call.outputs j).mem → i = j

theorem exportTo_of_storage {r : Region count} (h : r.hasStorage = true) :
    r.exportTo el = ⟨some r.mem, r.metadata, el.noHash, el.zero⟩ := if_pos h

/-! ## Copying -/

theorem copyFrom_of_storage {r r' : Region count} (h : r.hasStorage = true)
    (h' : r'.hasStorage = true) : copyFrom r (r'.exportTo el) d =
      if r'.mem = r.mem then d else d.memcpy r.mem r'.mem (count r.mem) := by
  rw [copyFrom, h, exportTo_of_storage h']

theorem copyFrom_of_ne {r r' : Region count} (h : r.hasStorage = true)
    (h' : r'.hasStorage = true) {m : Nat} (hm : r'.mem ≠ r.mem → m ≠ r.mem) :
    (copyFrom r (r'.exportTo el) d) m = d m := by
  rw [copyFrom_of_storage h h']
  split_ifs with heq
  · rfl
  · funext j
    exact if_neg (fun hj => hm heq hj.1)

theorem copyFrom_self {r r' : Region count} (h : r.hasStorage = true)
    (h' : r'.hasStorage = true) {j : Nat} (hj : j < count r.mem) :
    (copyFrom r (r'.exportTo el) d) r.mem j = d r'.mem j := by
  rw [copyFrom_of_storage h h']
  split_ifs with heq
  · rw [heq]
  · exact if_pos ⟨rfl, hj⟩

theorem foldl_copyFrom_of_ne (hlast : ∀ i, last.outputs i = (last.call.outputs i).exportTo el)
    (h : HitOK el c s last) {l : List (Fin OUT)} {m : Nat}
    (hm : ∀ i ∈ l, (last.call.outputs i).mem ≠ (c.outputs i).mem → m ≠ (c.outputs i).mem) :
    (l.foldl (fun d i => copyFrom (c.outputs i) (last.outputs i) d) d) m = d m := by
  induction l generalizing d with
  | nil => rfl
  | cons i l ih =>
      rw [List.foldl_cons, ih (fun i hi => hm i (List.mem_cons_of_mem _ hi)), hlast i,
        copyFrom_of_ne (h.storage i).1 (h.storage i).2 (hm i (List.mem_cons_self ..))]

/-- The cached outputs stay as they are. -/
theorem copyOutputs_last (hlast : ∀ i, last.outputs i = (last.call.outputs i).exportTo el)
    (h : HitOK el c s last) (k : Fin OUT) :
    (copyOutputs c last d) (last.call.outputs k).mem = d (last.call.outputs k).mem := by
  refine foldl_copyFrom_of_ne hlast h fun i _ hne heq => ?_
  obtain rfl := h.apart i k heq.symm
  exact hne heq

/-- **EVERY OUTPUT IS COPIED** from the cached one. -/
theorem copyOutputs_eq (hlast : ∀ i, last.outputs i = (last.call.outputs i).exportTo el)
    (h : HitOK el c s last) (i : Fin OUT) {j : Nat} (hj : j < count (c.outputs i).mem) :
    (copyOutputs c last d) (c.outputs i).mem j = d (last.call.outputs i).mem j := by
  have key : ∀ (l : List (Fin OUT)) (d : Data E), l.Nodup → i ∈ l →
      (l.foldl (fun d i => copyFrom (c.outputs i) (last.outputs i) d) d) (c.outputs i).mem j =
        d (last.call.outputs i).mem j := by
    intro l
    induction l with
    | nil => exact fun _ _ hi => nomatch hi
    | cons k l ih =>
        intro d hnodup hi
        obtain ⟨hk, hnodup⟩ := List.nodup_cons.mp hnodup
        rw [List.foldl_cons]
        by_cases hil : i ∈ l
        · rw [ih _ hnodup hil, hlast k, copyFrom_of_ne (h.storage k).1 (h.storage k).2]
          intro hne heq
          obtain rfl := h.apart k i heq.symm
          exact hne heq
        · obtain rfl : i = k := (List.mem_cons.mp hi).resolve_right hil
          rw [foldl_copyFrom_of_ne hlast h, hlast i,
            copyFrom_self (h.storage i).1 (h.storage i).2 hj]
          intro i' hi' _ heq
          exact hk (h.distinct _ _ heq ▸ hi')
  exact key _ d (List.nodup_finRange OUT) (List.mem_finRange i)

/-! ## The invariant -/

/-- The cached call is described as it was exported, and once its computation has ended, its
    outputs hold what was computed for it. -/
structure Inv (el : Elements E K H) (compute : Compute E IN OUT) (s : State E H count IN OUT) :
    Prop where
  jobs : ∀ j ∈ s.jobs, j.number < s.calls
  number : ∀ last ∈ s.last, last.number < s.calls
  inputs : ∀ last ∈ s.last, ∀ i,
    last.inputs i = ((last.call.inputs i).exportTo el).computeDataHash el count last.data
  outputs : ∀ last ∈ s.last, ∀ i, last.outputs i = (last.call.outputs i).exportTo el
  distinct : ∀ last ∈ s.last, Distinct last.call.outputs
  job : ∀ last ∈ s.last, ∀ j ∈ s.jobs, j.number = last.number →
    j.outputs = last.call.outputs ∧ j.results = last.call.results compute last.data
  kept : ∀ last ∈ s.last, (∀ j ∈ s.jobs, j.number ≠ last.number) → ∀ i,
    (last.call.outputs i).read s.data = (last.call.outputs i).read
      ((last.call.outputs i).write (last.call.results compute last.data i) s.data)

theorem inv_start (d : Data E) :
    Inv el compute (⟨d, none, [], 0⟩ : State E H count IN OUT) :=
  ⟨nofun, nofun, nofun, nofun, nofun, nofun, nofun⟩

/-- Other memory is written. -/
theorem Inv.of_data (hinv : Inv el compute s) (hd : ∀ last ∈ s.last, ∀ i,
    d (last.call.outputs i).mem = s.data (last.call.outputs i).mem) :
    Inv el compute { s with data := d } := by
  refine ⟨hinv.jobs, hinv.number, hinv.inputs, hinv.outputs, hinv.distinct, hinv.job, ?_⟩
  intro last hlast hended i
  rw [Region.read_of_mem_eq (hd last hlast i), hinv.kept last hlast hended i]
  exact Region.read_write rfl

/-- A call that is computed beside. -/
theorem Inv.startJob (hinv : Inv el compute s) (c : Call E count IN OUT) :
    Inv el compute (startJob compute c s) := by
  have hold : ∀ {last}, last ∈ s.last → s.calls ≠ last.number := fun hlast heq =>
    Nat.lt_irrefl _ (heq ▸ hinv.number _ hlast)
  refine ⟨?_, fun last hlast => Nat.lt_succ_of_lt (hinv.number last hlast), hinv.inputs,
    hinv.outputs, hinv.distinct, ?_, ?_⟩
  · intro j hj
    rcases List.mem_cons.mp hj with rfl | hj
    · exact Nat.lt_succ_self _
    · exact Nat.lt_succ_of_lt (hinv.jobs j hj)
  · intro last hlast j hj hnumber
    rcases List.mem_cons.mp hj with rfl | hj
    · exact absurd hnumber (hold hlast)
    · exact hinv.job last hlast j hj hnumber
  · exact fun last hlast hended =>
      hinv.kept last hlast fun j hj => hended j (List.mem_cons_of_mem _ hj)

/-- A call that becomes the cached one. -/
theorem Inv.install (hinv : Inv el compute s) (hc : Distinct c.outputs) :
    Inv el compute (PbMemoization.startJob compute c { s with last := some (c.memo el s) }) := by
  refine ⟨?_, ?_, ?_, ?_, ?_, ?_, ?_⟩
  · intro j hj
    rcases List.mem_cons.mp hj with rfl | hj
    · exact Nat.lt_succ_self _
    · exact Nat.lt_succ_of_lt (hinv.jobs j hj)
  · rintro _ ⟨⟩
    exact Nat.lt_succ_self _
  · rintro _ ⟨⟩ i
    rfl
  · rintro _ ⟨⟩ i
    rfl
  · rintro _ ⟨⟩
    exact hc
  · rintro _ ⟨⟩ j hj hnumber
    rcases List.mem_cons.mp hj with rfl | hj
    · exact ⟨rfl, rfl⟩
    · exact absurd hnumber (Nat.ne_of_lt (hinv.jobs j hj))
  · rintro _ ⟨⟩ hended
    exact absurd rfl (hended _ (List.mem_cons_self ..))

/-- **A COMPUTATION ENDS**: the one of the cached call, or one that writes elsewhere. -/
theorem Inv.finish (hinv : Inv el compute s) {j : Job E count OUT} (hj : j ∈ s.jobs)
    (hok : ∀ last ∈ s.last, last.number = j.number ∨
      ∀ i k, (j.outputs i).mem ≠ (last.call.outputs k).mem) :
    Inv el compute { s with
      data := j.finish s.data
      jobs := s.jobs.filter fun k => k.number ≠ j.number } := by
  refine ⟨fun k hk => hinv.jobs k ((List.mem_filter.mp hk).1), hinv.number, hinv.inputs,
    hinv.outputs, hinv.distinct,
    fun last hlast k hk => hinv.job last hlast k ((List.mem_filter.mp hk).1), ?_⟩
  intro last hlast hended i
  by_cases hnumber : last.number = j.number
  · obtain ⟨houtputs, hresults⟩ := hinv.job last hlast j hj hnumber.symm
    have hfinish := j.read_finish (houtputs ▸ hinv.distinct last hlast) i s.data
    rw [houtputs, hresults] at hfinish
    exact hfinish.trans (Region.read_write rfl)
  · have hapart := (hok last hlast).resolve_left hnumber
    have hsame : (j.finish s.data) (last.call.outputs i).mem = s.data (last.call.outputs i).mem :=
      Job.finish_of_ne fun k heq => hapart k i heq.symm
    have hbefore : ∀ k ∈ s.jobs, k.number ≠ last.number := by
      intro k hk heq
      refine hended k (List.mem_filter.mpr ⟨hk, ?_⟩) heq
      exact decide_eq_true (fun hkj => hnumber (heq.symm.trans hkj))
    calc (last.call.outputs i).read (j.finish s.data)
        = (last.call.outputs i).read s.data := Region.read_of_mem_eq hsame
      _ = _ := hinv.kept last hlast hbefore i
      _ = _ := Region.read_write rfl

/-! ## Matching -/

theorem isMetadataMatch_of_storage {r r' : Region count} (hr : r.hasStorage = true)
    (hr' : r'.hasStorage = true)
    (h : (r.exportTo el).isMetadataMatch (r'.exportTo el) = true) : r.metadata = r'.metadata := by
  rw [exportTo_of_storage hr, exportTo_of_storage hr'] at h
  exact of_decide_eq_true h

variable [DecidableEq H]

/-- **THE SAME INPUTS** where the metadata and the digests match. -/
theorem Input.value_eq {i i' : Input E count}
    (hmeta : ((i.exportTo el).computeDataHash el count d).isMetadataMatch
      ((i'.exportTo el).computeDataHash el count d') = true)
    (hdata : ((i.exportTo el).computeDataHash el count d).isDataMatch el
      ((i'.exportTo el).computeDataHash el count d') = true)
    (hd : i.Distinguished el d d' i') : i.value d = i'.value d' := by
  match i, i', hd with
  | .scalar v, .scalar v', hd =>
      have heq : el.eq v v' = true :=
        (Bool.and_eq_true_iff.mp (Bool.and_eq_true_iff.mp hdata).1).1
      exact congrArg Value.scalar (hd heq)
  | .region r, .region r', ⟨hr, hr', hd⟩ =>
      rw [Input.exportTo, Input.exportTo, exportTo_of_storage hr, exportTo_of_storage hr']
        at hmeta hdata
      have hm : r.metadata = r'.metadata := of_decide_eq_true hmeta
      have hhash : hash el count d r.mem = hash el count d' r'.mem :=
        of_decide_eq_true (Bool.and_eq_true_iff.mp hdata).2
      have hcontents := hd (el.digest_injective hhash)
      have hcount : count r.mem = count r'.mem := by
        have hlength := congrArg List.length hcontents
        simpa only [Data.contents, List.length_map, List.length_range] using hlength
      have hread : r.read d = r'.read d' := by
        refine Region.read_congr hm fun j hj => ?_
        have hj := List.mem_range.mpr (r.inStorage j hj)
        rw [Data.contents, Data.contents, ← hcount] at hcontents
        exact List.map_inj_left.mp hcontents j hj
      rw [Input.value, Input.value, hm, hread]

theorem memoize_eq_some (h : memoize el c s = some last) : s.last = some last ∧
    (c.memo el s).isMetadataMatch last = true ∧ (c.memo el s).isInputDataMatch el last = true := by
  obtain ⟨hlast, hmatch⟩ := Option.filter_eq_some_iff.mp h
  exact ⟨hlast, Bool.and_eq_true_iff.mp hmatch⟩

/-- A call that matches the cached one would compute the same. -/
theorem Inv.results_eq (hinv : Inv el compute s) (h : memoize el c s = some last)
    (hok : HitOK el c s last) :
    c.results compute s.data = last.call.results compute last.data ∧
      ∀ i, (c.outputs i).metadata = (last.call.outputs i).metadata := by
  obtain ⟨hlast, hmeta, hdata⟩ := memoize_eq_some h
  obtain ⟨hmeta, hmeta'⟩ := Bool.and_eq_true_iff.mp hmeta
  have houts : ∀ i, (c.outputs i).metadata = (last.call.outputs i).metadata := by
    intro i
    have hi := of_decide_eq_true hmeta' i
    rw [hinv.outputs last hlast i] at hi
    exact isMetadataMatch_of_storage (hok.storage i).1 (hok.storage i).2 hi
  have hvalues : c.values s.data = last.call.values last.data := by
    funext i
    have hi := of_decide_eq_true hmeta i
    have hi' := of_decide_eq_true hdata i
    rw [hinv.inputs last hlast i] at hi hi'
    exact Input.value_eq hi hi' (hok.distinguished i)
  refine ⟨?_, houts⟩
  rw [Call.results, Call.results, hvalues]
  simp only [houts]

/-- **A HIT IS RIGHT.** -/
theorem Inv.read_copyOutputs (hinv : Inv el compute s) (h : memoize el c s = some last)
    (hok : HitOK el c s last) (i : Fin OUT) :
    (c.outputs i).read (copyOutputs c last s.data) =
      (c.outputs i).read ((c.outputs i).write (c.results compute s.data i) s.data) := by
  obtain ⟨hlast, -, -⟩ := memoize_eq_some h
  obtain ⟨hresults, hmeta⟩ := hinv.results_eq h hok
  calc (c.outputs i).read (copyOutputs c last s.data)
      = (last.call.outputs i).read s.data :=
        Region.read_congr (hmeta i) fun j hj =>
          copyOutputs_eq (hinv.outputs last hlast) hok i ((c.outputs i).inStorage j hj)
    _ = (last.call.outputs i).read ((last.call.outputs i).write
          (last.call.results compute last.data i) s.data) := hinv.kept last hlast hok.ended i
    _ = (c.outputs i).read ((c.outputs i).write (c.results compute s.data i) s.data) := by
        rw [hresults]
        exact (Region.read_write (hmeta i)).symm

/-! ## Steps -/

/-- Memory that no output of the cached call is in. -/
def Untouched (s : State E H count IN OUT) (mem : Nat) : Prop :=
  ∀ last ∈ s.last, ∀ i, (last.call.outputs i).mem ≠ mem

/-- A step that leaves the cached outputs as they were computed, and asks only what they answer. -/
def Step.OK (el : Elements E K H) (s : State E H count IN OUT) : Step E count IN OUT → Prop
  | .write mem _ _ => Untouched s mem
  | .call c => c.isEntireBuffer = true →
      Distinct c.outputs ∧ ∀ last, memoize el c s = some last → HitOK el c s last
  | .finish number => ∀ j ∈ s.jobs, j.number = number → ∀ last ∈ s.last,
      last.number = number ∨ ∀ i k, (j.outputs i).mem ≠ (last.call.outputs k).mem

/-- **ONE STEP.** -/
theorem Inv.step (hinv : Inv el compute s) {step : Step E count IN OUT} (hok : step.OK el s) :
    Inv el compute (step.run el compute s) := by
  match step with
  | .write mem i v =>
      refine hinv.of_data fun last hlast k => ?_
      exact Data.set_of_ne (hok last hlast k)
  | .call c =>
      rw [Step.run, tryMemoize]
      by_cases hentire : c.isEntireBuffer = true
      · rw [if_pos hentire]
        obtain ⟨hdistinct, hhit⟩ := hok hentire
        cases hmemo : memoize el c s with
        | none => exact hinv.install hdistinct
        | some last =>
            obtain ⟨hlast, -, -⟩ := memoize_eq_some hmemo
            refine hinv.of_data fun last' hlast' k => ?_
            obtain rfl : last = last' := Option.some.inj (hlast.symm.trans hlast')
            exact copyOutputs_last (hinv.outputs last hlast) (hhit last hmemo) k
      · rw [if_neg hentire]
        exact hinv.startJob c
  | .finish number =>
      rw [Step.run]
      cases hfind : s.jobs.find? fun j => j.number = number with
      | none => exact hinv
      | some j =>
          have hnumber := List.find?_some hfind
          obtain rfl : j.number = number := of_decide_eq_true hnumber
          have hj := List.mem_of_find?_eq_some hfind
          exact hinv.finish hj (hok j hj rfl)

/-! ## Runs -/

/-- A run of such steps. -/
def RunOK (el : Elements E K H) (compute : Compute E IN OUT) :
    State E H count IN OUT → List (Step E count IN OUT) → Prop
  | _, [] => True
  | s, step :: steps => step.OK el s ∧ RunOK el compute (step.run el compute s) steps

theorem Inv.run (hinv : Inv el compute s) {steps steps' : List (Step E count IN OUT)}
    (hok : RunOK el compute s (steps ++ steps')) :
    Inv el compute (steps.foldl (Step.run el compute) s) ∧
      RunOK el compute (steps.foldl (Step.run el compute) s) steps' := by
  induction steps generalizing s with
  | nil => exact ⟨hinv, hok⟩
  | cons step steps ih => exact ih (hinv.step hok.1) hok.2

/-- **EVERY HIT IS RIGHT** in a run that leaves the cached outputs alone: what a call that is a hit
    finds in an output is what the transform would write there. -/
theorem hit_right (d : Data E) {steps : List (Step E count IN OUT)}
    (hok : RunOK el compute ⟨d, none, [], 0⟩ (steps ++ [.call c]))
    (hhit : (tryMemoize el c (runAll el compute d steps)).1 = true) (i : Fin OUT) :
    (c.outputs i).read (tryMemoize el c (runAll el compute d steps)).2.data =
      (c.outputs i).read ((c.outputs i).write
        (c.results compute (runAll el compute d steps).data i) (runAll el compute d steps).data) := by
  obtain ⟨hinv, hcall, -⟩ := (inv_start d).run hok
  change Inv el compute (runAll el compute d steps) at hinv
  change Step.OK el (runAll el compute d steps) (.call c) at hcall
  generalize runAll el compute d steps = s at hinv hcall hhit ⊢
  rw [tryMemoize] at hhit ⊢
  by_cases hentire : c.isEntireBuffer = true
  · rw [if_pos hentire] at hhit ⊢
    cases hmemo : memoize el c s with
    | none =>
        rw [hmemo] at hhit
        cases hhit
    | some last => exact hinv.read_copyOutputs hmemo ((hcall hentire).2 last hmemo) i
  · rw [if_neg hentire] at hhit
    cases hhit

end Site

/-! ## Adding one -/

/-- Whole numbers, which are hashed as they are. -/
def integers : Elements Int Int (Option (List Int)) where
  zero := 0
  eq v v' := v = v'
  toFloat := id
  digest := some
  noHash := none
  digest_injective := fun _ _ h => Option.some.inj h

/-- A vector of one element. -/
def vector (mem : Nat) : Region (fun _ => 1) := ⟨mem, true, ⟨0, [1], [1]⟩, by decide⟩

/-- `transform AddOne from A[n] to B[n]` -/
def addOne : Compute Int 1 1 := fun values _ _ _ =>
  match values 0 with
  | .matrix _ [x] => x + 1
  | _ => 0

def addOneCall (input output : Nat) : Call Int (fun _ => 1) 1 1 :=
  ⟨fun _ => .region (vector input), fun _ => vector output⟩

theorem distinct_addOne (input output : Nat) : Distinct (addOneCall input output).outputs :=
  fun _ _ _ => Subsingleton.elim _ _

/-- The caller overwrites an output that was not computed. -/
theorem hit_right_addOne :
    (tryMemoize integers (addOneCall 0 2) (runAll integers addOne (fun _ _ => 5)
      [.call (addOneCall 0 1), .finish 0, .write 2 0 99])).1 = true ∧
    ((addOneCall 0 2).outputs 0).read (tryMemoize integers (addOneCall 0 2)
      (runAll integers addOne (fun _ _ => 5)
        [.call (addOneCall 0 1), .finish 0, .write 2 0 99])).2.data =
      ((addOneCall 0 2).outputs 0).read (((addOneCall 0 2).outputs 0).write
        ((addOneCall 0 2).results addOne (runAll integers addOne (fun _ _ => 5)
          [.call (addOneCall 0 1), .finish 0, .write 2 0 99]).data 0)
        (runAll integers addOne (fun _ _ => 5)
          [.call (addOneCall 0 1), .finish 0, .write 2 0 99]).data) := by
  have hhit : (tryMemoize integers (addOneCall 0 2) (runAll integers addOne (fun _ _ => 5)
      [.call (addOneCall 0 1), .finish 0, .write 2 0 99])).1 = true := by decide
  have hok : RunOK integers addOne ⟨fun _ _ => 5, none, [], 0⟩
      ([.call (addOneCall 0 1), .finish 0, .write 2 0 99] ++ [.call (addOneCall 0 2)]) := by
    refine ⟨?_, ?_, ?_, ?_, trivial⟩
    · exact fun _ => ⟨distinct_addOne 0 1, nofun⟩
    · rintro j hj - last ⟨⟩
      exact .inl rfl
    · rintro last ⟨⟩ i
      exact Nat.ne_of_beq_eq_false rfl
    · refine fun _ => ⟨distinct_addOne 0 2, fun last hmemo => ?_⟩
      obtain ⟨hlast, -, -⟩ := memoize_eq_some hmemo
      obtain rfl := Option.some.inj hlast
      refine ⟨nofun, fun i => ⟨rfl, rfl, ?_⟩, fun _ => ⟨rfl, rfl⟩, distinct_addOne 0 2,
        fun _ _ _ => Subsingleton.elim _ _⟩
      intro h
      simpa [integers] using h
  exact ⟨hhit, hit_right _ hok hhit 0⟩

/-- The caller overwrites the cached output; the next call for the same input is given that. -/
theorem overwritten_output :
    (tryMemoize integers (addOneCall 0 2) (runAll integers addOne (fun _ _ => 5)
      [.call (addOneCall 0 1), .finish 0, .write 1 0 99])).1 = true ∧
    ((addOneCall 0 2).outputs 0).read (tryMemoize integers (addOneCall 0 2)
      (runAll integers addOne (fun _ _ => 5)
        [.call (addOneCall 0 1), .finish 0, .write 1 0 99])).2.data = [99] ∧
    ((addOneCall 0 2).outputs 0).read (((addOneCall 0 2).outputs 0).write
      ((addOneCall 0 2).results addOne (runAll integers addOne (fun _ _ => 5)
        [.call (addOneCall 0 1), .finish 0, .write 1 0 99]).data 0)
      (runAll integers addOne (fun _ _ => 5)
        [.call (addOneCall 0 1), .finish 0, .write 1 0 99]).data) = [6] := by
  decide

end PbMemoization
