import Mathlib.Data.Finset.Lattice.Fold
import Mathlib.Logic.Function.Basic
import PetaBricks.TransitionProofs

/-! # Copying out of the GPU — `MatrixStorageInfo::finishGpuMem` and `GpuManager::copyout`

    A node that has run registers the groups of its map.  When all nodes of a group have run, its
    data is read from the GPU: at a node with immediate copy-out the nodes of the group get a
    record of the read, and at one with pending copy-out they do not.  The copy-out tasks stand in
    a queue until they find the record of their node; the first one that finds it read copies
    the data of all its nodes.

    A group that is registered late loses the nodes that were done before: what is left of it is
    the group less a set that is the same for all groups. -/

namespace PbCopyout

open PbTransition

/-- 0, 1 and 2. -/
inductive GpuCopyOut
  | none | immediate | pending
deriving DecidableEq

/-- A task for the GPU: what its map has under the matrix's name, how its data is copied out, and
    its part of the matrix, which may be empty. -/
structure Node where
  groups : List (Finset ℕ)
  gpuCopyOut : GpuCopyOut
  nonempty : Bool
  size : ℕ

/-- The tasks that write to the matrix, by their ids. -/
structure Schedule where
  node : ℕ → Node
  countOnGpu : ℕ

/-- `CopyoutInfo`, with the nodes that it is given to and the tasks that have copied its data. -/
structure CopyoutInfo where
  nodes : Finset ℕ
  coverage : ℕ
  read : Bool
  done : Bool
  copiedBy : List ℕ
deriving DecidableEq

structure MatrixStorageInfo where
  remainingGroups : List (Finset ℕ)
  completeGroups : List (Finset ℕ)
  doneRemainingNodes : List ℕ
  doneCompleteNodes : Finset ℕ
  copyMap : ℕ → Option ℕ
  infos : List CopyoutInfo
  coverage : ℕ

/-- Nothing is read without data. -/
def newInfo (nodes : Finset ℕ) (coverage : ℕ) : CopyoutInfo :=
  ⟨nodes, coverage, false, coverage = 0, []⟩

def startReadBuffer (countOnGpu : ℕ) (m : MatrixStorageInfo) (doneNodes : Finset ℕ) (now : Bool) :
    MatrixStorageInfo :=
  if now then
    { m with
      doneCompleteNodes := m.doneCompleteNodes ∪ doneNodes
      copyMap := fun n => if n ∈ doneNodes then some m.infos.length else m.copyMap n
      completeGroups := m.completeGroups.map (· \ doneNodes)
      infos := m.infos ++ [newInfo doneNodes m.coverage]
      coverage := 0 }
  -- what is pending is copied at once, unless it is all of the matrix
  else if m.coverage ≠ countOnGpu then { m with coverage := 0 }
  else m

/-- The groups of the map are added, and the node is taken out. -/
def register (m : MatrixStorageInfo) (nodeID : ℕ) (groups : List (Finset ℕ)) : MatrixStorageInfo :=
  { m with
    remainingGroups := (m.remainingGroups ++ groups.map (· \ m.doneRemainingNodes.toFinset)).map
      (·.erase nodeID)
    completeGroups := m.completeGroups ++ groups.map (· \ m.doneCompleteNodes)
    doneRemainingNodes := m.doneRemainingNodes ++ [nodeID] }

/-- The nodes of the groups of which no node remains. -/
def doneNodes (m : MatrixStorageInfo) : Finset ℕ :=
  (((m.remainingGroups.zip m.completeGroups).filter fun g => decide (g.1 = ∅)).map
    Prod.snd).foldr (· ∪ ·) ∅

def finishGpuMem (countOnGpu : ℕ) (m : MatrixStorageInfo) (nodeID : ℕ) (groups : List (Finset ℕ))
    (gpuCopyOut : GpuCopyOut) : MatrixStorageInfo :=
  if gpuCopyOut ≠ .none then
    let m := register m nodeID groups
    if doneNodes m ≠ ∅ then
      startReadBuffer countOnGpu m (doneNodes m) (gpuCopyOut = .immediate)
    else m
  else m

/-- The storage, the nodes that have run, and the copy-out tasks that are complete. -/
structure State where
  storage : MatrixStorageInfo
  finished : List ℕ
  completed : Finset ℕ

/-- A node runs, a read comes to its end, or a copy-out task is at the front of the queue. -/
inductive Act
  | run (k : ℕ)
  | read (i : ℕ)
  | poll (k : ℕ)

/-- There is a copy-out task for a node with immediate copy-out that ends some group. -/
def Node.hasTask (n : Node) : Bool := n.gpuCopyOut = .immediate && !n.groups.isEmpty

/-- `GpuManager::run`. -/
def run (S : Schedule) (s : State) (k : ℕ) : State :=
  let n := S.node k
  let m := if n.nonempty then { s.storage with coverage := s.storage.coverage + n.size }
    else s.storage
  { s with
    storage := finishGpuMem S.countOnGpu m k n.groups n.gpuCopyOut
    finished := s.finished ++ [k] }

def State.setInfo (s : State) (i : ℕ) (r : CopyoutInfo) : State :=
  { s with storage := { s.storage with infos := s.storage.infos.set i r } }

/-- `done`, and the task leaves the queue. -/
def State.complete (s : State) (k : ℕ) : State :=
  { s with
    storage := { s.storage with copyMap := Function.update s.storage.copyMap k none }
    completed := insert k s.completed }

/-- `GpuManager::copyout`. -/
def copyout (S : Schedule) (s : State) (k : ℕ) : State :=
  if (S.node k).nonempty then
    match s.storage.copyMap k with
    | none => s
    | some i =>
        match s.storage.infos[i]? with
        | none => s
        | some r =>
            if r.done then s.complete k
            else if r.read then
              (s.setInfo i { r with done := true, copiedBy := r.copiedBy ++ [k] }).complete k
            else s
  else s.complete k

def next (S : Schedule) (s : State) : Act → Option State
  | .run k => if k ∉ s.finished then some (run S s k) else none
  | .read i => (s.storage.infos[i]?).map fun r => s.setInfo i { r with read := true }
  | .poll k =>
      if (S.node k).hasTask ∧ k ∉ s.completed then some (copyout S s k) else none

def start : State := ⟨⟨[], [], [], ∅, fun _ => none, [], 0⟩, [], ∅⟩

def system (S : Schedule) : System State Act where
  init s := s = start
  next := next S

/-! ## What the lists are -/

/-- The nodes that take part in copying out, in the order in which they have finished. -/
def copied (S : Schedule) (fs : List ℕ) : List ℕ :=
  fs.filter fun k => (S.node k).gpuCopyOut ≠ .none

/-- The groups that have been registered. -/
def registered (S : Schedule) (fs : List ℕ) : List (Finset ℕ) :=
  (copied S fs).flatMap fun k => (S.node k).groups

/-- All nodes of a group have finished. -/
def Released (S : Schedule) (fs : List ℕ) (n : ℕ) : Prop :=
  ∃ G ∈ registered S fs, n ∈ G ∧ ∀ k ∈ G, k ∈ copied S fs

/-- The lists of groups are the registered groups, less the nodes that are done. -/
structure Lists (S : Schedule) (m : MatrixStorageInfo) (fs : List ℕ) : Prop where
  doneRemaining : m.doneRemainingNodes = copied S fs
  remaining : m.remainingGroups = (registered S fs).map (· \ (copied S fs).toFinset)
  complete : m.completeGroups = (registered S fs).map (· \ m.doneCompleteNodes)

/-- Some node with immediate copy-out has found all nodes of a group finished. -/
def Given (S : Schedule) (fs : List ℕ) (n : ℕ) : Prop :=
  ∃ ps k, ps ++ [k] <+: fs ∧ (S.node k).gpuCopyOut = .immediate ∧ Released S (ps ++ [k]) n

/-- A record is closed if it has no data, or if a task has copied its data; and that is so if some
    task that waits for it is complete. -/
structure InfoInv (S : Schedule) (completed : Finset ℕ) (r : CopyoutInfo) : Prop where
  once : r.copiedBy.length ≤ 1
  copiedBy : ∀ k ∈ r.copiedBy, k ∈ r.nodes
  done_iff : r.done = true ↔ r.coverage = 0 ∨ r.copiedBy ≠ []
  no_data : r.coverage = 0 → r.copiedBy = []
  closed : ∀ k ∈ r.nodes, (S.node k).nonempty = true → k ∈ completed → r.done = true

/-- No node has two records, and a task that waits for data finds the record of its node. -/
structure Records (S : Schedule) (m : MatrixStorageInfo) (completed : Finset ℕ) : Prop where
  mem_iff : ∀ n, n ∈ m.doneCompleteNodes ↔ ∃ r ∈ m.infos, n ∈ r.nodes
  disjoint : m.infos.Pairwise fun a b => Disjoint a.nodes b.nodes
  copyMap : ∀ n i, m.copyMap n = some i → ∃ r, m.infos[i]? = some r ∧ n ∈ r.nodes
  waiting : ∀ n ∈ m.doneCompleteNodes, n ∉ completed → ∃ i, m.copyMap n = some i
  given : ∀ n ∈ completed, (S.node n).nonempty = true → n ∈ m.doneCompleteNodes
  info : ∀ r ∈ m.infos, InfoInv S completed r

structure Inv (S : Schedule) (s : State) : Prop where
  lists : Lists S s.storage s.finished
  given : ∀ n, n ∈ s.storage.doneCompleteNodes ↔ Given S s.finished n
  records : Records S s.storage s.completed

theorem mem_doneNodes {m : MatrixStorageInfo} {groups : List (Finset ℕ)} {A B : Finset ℕ}
    (hr : m.remainingGroups = groups.map (· \ A)) (hc : m.completeGroups = groups.map (· \ B))
    (n : ℕ) : n ∈ doneNodes m ↔ n ∉ B ∧ ∃ G ∈ groups, n ∈ G ∧ G ⊆ A := by
  have hmem : ∀ l : List (Finset ℕ), n ∈ l.foldr (· ∪ ·) ∅ ↔ ∃ G ∈ l, n ∈ G := by
    intro l
    induction l with
    | nil => simp
    | cons G l ih => rw [List.foldr_cons, Finset.mem_union, ih, List.exists_mem_cons_iff]
  rw [doneNodes, hmem, hr, hc, List.zip_map']
  constructor
  · rintro ⟨H, hH, hn⟩
    obtain ⟨g, hg, rfl⟩ := List.mem_map.mp hH
    obtain ⟨hg, hempty⟩ := List.mem_filter.mp hg
    obtain ⟨G, hG, rfl⟩ := List.mem_map.mp hg
    obtain ⟨hnG, hnB⟩ := Finset.mem_sdiff.mp hn
    exact ⟨hnB, G, hG, hnG, Finset.sdiff_eq_empty_iff_subset.mp (of_decide_eq_true hempty)⟩
  · rintro ⟨hnB, G, hG, hnG, hsub⟩
    refine ⟨G \ B, List.mem_map.mpr ⟨(G \ A, G \ B), List.mem_filter.mpr ⟨?_, ?_⟩, rfl⟩,
      Finset.mem_sdiff.mpr ⟨hnG, hnB⟩⟩
    · exact List.mem_map_of_mem hG
    · exact decide_eq_true (Finset.sdiff_eq_empty_iff_subset.mpr hsub)

/-! ## A node finishes -/

section Finish

variable {S : Schedule} {m : MatrixStorageInfo} {fs : List ℕ} {k : ℕ} {completed : Finset ℕ}

theorem copied_append (S : Schedule) (fs : List ℕ) (k : ℕ) :
    copied S (fs ++ [k]) =
      copied S fs ++ if (S.node k).gpuCopyOut ≠ .none then [k] else [] := by
  rw [copied, List.filter_append, ← copied, List.filter_singleton]
  simp

theorem registered_append (S : Schedule) (fs : List ℕ) (k : ℕ) :
    registered S (fs ++ [k]) =
      registered S fs ++ if (S.node k).gpuCopyOut ≠ .none then (S.node k).groups else [] := by
  rw [registered, copied_append, List.flatMap_append, ← registered]
  split
  · rw [List.flatMap_singleton]
  · rfl

theorem Lists.register (h : Lists S m fs) (hk : (S.node k).gpuCopyOut ≠ .none) :
    Lists S (register m k (S.node k).groups) (fs ++ [k]) := by
  have hcopied := copied_append S fs k
  have hregistered := registered_append S fs k
  rw [if_pos hk] at hcopied hregistered
  refine ⟨?_, ?_, ?_⟩
  · show m.doneRemainingNodes ++ [k] = _
    rw [h.doneRemaining, hcopied]
  · show (m.remainingGroups ++ (S.node k).groups.map (· \ m.doneRemainingNodes.toFinset)).map
      (·.erase k) = _
    rw [h.remaining, h.doneRemaining, ← List.map_append, ← hregistered, List.map_map, hcopied]
    refine List.map_congr_left fun G _ => ?_
    show (G \ (copied S fs).toFinset).erase k = G \ (copied S fs ++ [k]).toFinset
    ext n
    simp only [Finset.mem_erase, Finset.mem_sdiff, List.mem_toFinset, List.mem_append,
      List.mem_singleton]
    tauto
  · show m.completeGroups ++ (S.node k).groups.map (· \ m.doneCompleteNodes) = _
    rw [h.complete, ← List.map_append, ← hregistered]
    rfl

/-- A node that is not copied out is not seen. -/
theorem Lists.skip (h : Lists S m fs) (hk : (S.node k).gpuCopyOut = .none) :
    Lists S m (fs ++ [k]) := by
  have hcopied := copied_append S fs k
  have hregistered := registered_append S fs k
  rw [if_neg (not_not.mpr hk), List.append_nil] at hcopied hregistered
  exact ⟨by rw [hcopied]; exact h.doneRemaining, by rw [hcopied, hregistered]; exact h.remaining,
    by rw [hregistered]; exact h.complete⟩

/-- **THE NODES THAT ARE DONE**: those without a record in a group of which all nodes have
    finished. -/
theorem Lists.mem_doneNodes (h : Lists S m fs) (n : ℕ) :
    n ∈ doneNodes m ↔ n ∉ m.doneCompleteNodes ∧ Released S fs n := by
  rw [PbCopyout.mem_doneNodes h.remaining h.complete]
  refine and_congr_right fun _ => exists_congr fun G => and_congr_right fun _ =>
    and_congr_right fun _ => ?_
  exact forall_congr' fun k => imp_congr_right fun _ => List.mem_toFinset

theorem Lists.startReadBuffer (h : Lists S m fs) (D : Finset ℕ) (c : ℕ) (now : Bool) :
    Lists S (startReadBuffer c m D now) fs := by
  cases now with
  | true =>
      refine ⟨h.doneRemaining, h.remaining, ?_⟩
      show m.completeGroups.map (· \ D) = (registered S fs).map (· \ (m.doneCompleteNodes ∪ D))
      rw [h.complete, List.map_map]
      refine List.map_congr_left fun G _ => ?_
      exact Finset.sdiff_sdiff_left' G m.doneCompleteNodes D |>.trans (by
        rw [← Finset.sdiff_union_distrib])
  | false =>
      rw [PbCopyout.startReadBuffer, if_neg Bool.false_ne_true]
      split
      · exact ⟨h.doneRemaining, h.remaining, h.complete⟩
      · exact h

/-- New records are for nodes that had none. -/
theorem Records.startReadBuffer (h : Records S m completed) {D : Finset ℕ}
    (hD : ∀ n ∈ D, n ∉ m.doneCompleteNodes) (c : ℕ) (now : Bool) :
    Records S (startReadBuffer c m D now) completed := by
  cases now with
  | false =>
      rw [PbCopyout.startReadBuffer, if_neg Bool.false_ne_true]
      split
      · exact ⟨h.mem_iff, h.disjoint, h.copyMap, h.waiting, h.given, h.info⟩
      · exact h
  | true =>
      refine ⟨?_, ?_, ?_, ?_, ?_, ?_⟩
      · intro n
        show n ∈ m.doneCompleteNodes ∪ D ↔ ∃ r ∈ m.infos ++ [newInfo D m.coverage], n ∈ r.nodes
        rw [Finset.mem_union, h.mem_iff]
        constructor
        · rintro (⟨r, hr, hn⟩ | hn)
          · exact ⟨r, List.mem_append_left _ hr, hn⟩
          · exact ⟨_, List.mem_append_right _ (List.mem_singleton_self _), hn⟩
        · rintro ⟨r, hr, hn⟩
          rcases List.mem_append.mp hr with hr | hr
          · exact .inl ⟨r, hr, hn⟩
          · obtain rfl := List.mem_singleton.mp hr
            exact .inr hn
      · show (m.infos ++ [newInfo D m.coverage]).Pairwise _
        refine List.pairwise_append.mpr ⟨h.disjoint, List.pairwise_singleton _ _, ?_⟩
        intro r hr r' hr'
        obtain rfl := List.mem_singleton.mp hr'
        refine Finset.disjoint_left.mpr fun n hn hnD => ?_
        exact hD n hnD ((h.mem_iff n).mpr ⟨r, hr, hn⟩)
      · intro n i hi
        show ∃ r, (m.infos ++ [newInfo D m.coverage])[i]? = some r ∧ n ∈ r.nodes
        change (if n ∈ D then some m.infos.length else m.copyMap n) = some i at hi
        by_cases hn : n ∈ D
        · rw [if_pos hn] at hi
          refine ⟨newInfo D m.coverage, ?_, hn⟩
          rw [← Option.some.inj hi, List.getElem?_append_right le_rfl, Nat.sub_self]
          rfl
        · rw [if_neg hn] at hi
          obtain ⟨r, hr, hnr⟩ := h.copyMap n i hi
          have hlt : i < m.infos.length := (List.getElem?_eq_some_iff.mp hr).1
          exact ⟨r, by rw [List.getElem?_append_left hlt, hr], hnr⟩
      · intro n hn hw
        show ∃ i, (if n ∈ D then some m.infos.length else m.copyMap n) = some i
        by_cases hnD : n ∈ D
        · exact ⟨_, if_pos hnD⟩
        · rw [if_neg hnD]
          rcases Finset.mem_union.mp hn with hn | hn
          · exact h.waiting n hn hw
          · exact absurd hn hnD
      · intro n hn hne
        exact Finset.mem_union_left _ (h.given n hn hne)
      · intro r hr
        rcases List.mem_append.mp hr with hr | hr
        · exact h.info r hr
        · obtain rfl := List.mem_singleton.mp hr
          refine ⟨Nat.zero_le 1, (fun _ hk => nomatch hk), ?_, fun _ => rfl, ?_⟩
          · show decide (m.coverage = 0) = true ↔ m.coverage = 0 ∨ [] ≠ []
            simp
          · intro n hn hne hc
            exact absurd (h.given n hc hne) (hD n hn)

end Finish

/-! ## The steps -/

section Steps

variable {S : Schedule} {s t : State} {k : ℕ}

theorem given_append (S : Schedule) (fs : List ℕ) (k n : ℕ) :
    Given S (fs ++ [k]) n ↔
      Given S fs n ∨ ((S.node k).gpuCopyOut = .immediate ∧ Released S (fs ++ [k]) n) := by
  constructor
  · rintro ⟨ps, j, hps, hj, hrel⟩
    rcases List.prefix_concat_iff.mp hps with heq | hps
    · obtain ⟨rfl, hjk⟩ := List.append_inj' heq rfl
      obtain rfl := (List.cons.inj hjk).1
      exact .inr ⟨hj, hrel⟩
    · exact .inl ⟨ps, j, hps, hj, hrel⟩
  · rintro (⟨ps, j, hps, hj, hrel⟩ | ⟨hk, hrel⟩)
    · exact ⟨ps, j, hps.trans (List.prefix_append fs [k]), hj, hrel⟩
    · exact ⟨fs, k, List.prefix_rfl, hk, hrel⟩

/-- What the coverage is does not matter. -/
theorem Lists.coverage {m : MatrixStorageInfo} {fs : List ℕ} (h : Lists S m fs) (c : ℕ) :
    Lists S { m with coverage := c } fs := ⟨h.doneRemaining, h.remaining, h.complete⟩

theorem Records.coverage {m : MatrixStorageInfo} {completed : Finset ℕ}
    (h : Records S m completed) (c : ℕ) : Records S { m with coverage := c } completed :=
  ⟨h.mem_iff, h.disjoint, h.copyMap, h.waiting, h.given, h.info⟩

/-- **A FINISH**, from a storage with the lists and records in order. -/
theorem finishGpuMem_inv {m : MatrixStorageInfo} {fs : List ℕ} {completed : Finset ℕ}
    (hl : Lists S m fs) (hg : ∀ n, n ∈ m.doneCompleteNodes ↔ Given S fs n)
    (hr : Records S m completed) (c : ℕ) :
    let m' := finishGpuMem c m k (S.node k).groups (S.node k).gpuCopyOut
    Lists S m' (fs ++ [k]) ∧ (∀ n, n ∈ m'.doneCompleteNodes ↔ Given S (fs ++ [k]) n) ∧
      Records S m' completed := by
  intro m'
  by_cases hk : (S.node k).gpuCopyOut = .none
  · have hm' : m' = m := if_neg (not_not.mpr hk)
    rw [hm']
    refine ⟨hl.skip hk, fun n => ?_, hr⟩
    rw [given_append, hk, hg]
    simp
  · have hl' := hl.register hk
    have hr' : Records S (register m k (S.node k).groups) completed :=
      ⟨hr.mem_iff, hr.disjoint, hr.copyMap, hr.waiting, hr.given, hr.info⟩
    have hmem := hl'.mem_doneNodes
    have hdone : (register m k (S.node k).groups).doneCompleteNodes = m.doneCompleteNodes := rfl
    have hm' : m' = if doneNodes (register m k (S.node k).groups) ≠ ∅ then
        startReadBuffer c (register m k (S.node k).groups)
          (doneNodes (register m k (S.node k).groups)) ((S.node k).gpuCopyOut = .immediate)
        else register m k (S.node k).groups := if_pos hk
    by_cases hempty : doneNodes (register m k (S.node k).groups) = ∅
    · rw [hm', if_neg (not_not.mpr hempty)]
      refine ⟨hl', fun n => ?_, hr'⟩
      rw [given_append, hdone, hg]
      constructor
      · exact .inl
      · rintro (h | ⟨-, hrel⟩)
        · exact h
        · by_contra hn
          have hin := (hmem n).mpr ⟨fun h => hn ((hg n).mp h), hrel⟩
          rw [hempty] at hin
          exact Finset.notMem_empty n hin
    · rw [hm', if_pos hempty]
      refine ⟨hl'.startReadBuffer _ _ _, fun n => ?_,
        hr'.startReadBuffer (fun n hn => ((hmem n).mp hn).1) _ _⟩
      rw [given_append]
      by_cases hnow : (S.node k).gpuCopyOut = .immediate
      · rw [decide_eq_true hnow]
        show n ∈ m.doneCompleteNodes ∪ doneNodes (register m k (S.node k).groups) ↔ _
        rw [Finset.mem_union, hmem, hdone, hg]
        tauto
      · rw [decide_eq_false hnow, PbCopyout.startReadBuffer, if_neg Bool.false_ne_true]
        have hsame : n ∈ m.doneCompleteNodes ↔ Given S fs n ∨
            ((S.node k).gpuCopyOut = .immediate ∧ Released S (fs ++ [k]) n) := by
          rw [hg]
          exact ⟨.inl, fun h => h.elim id fun h => absurd h.1 hnow⟩
        split <;> exact hsame

theorem Inv.run (h : Inv S s) (k : ℕ) : Inv S (run S s k) := by
  have key : ∀ m : MatrixStorageInfo, Lists S m s.finished →
      (∀ n, n ∈ m.doneCompleteNodes ↔ Given S s.finished n) → Records S m s.completed →
      Inv S { s with
        storage := finishGpuMem S.countOnGpu m k (S.node k).groups (S.node k).gpuCopyOut
        finished := s.finished ++ [k] } := by
    intro m hl hg hr
    obtain ⟨hl', hg', hr'⟩ := finishGpuMem_inv (k := k) hl hg hr S.countOnGpu
    exact ⟨hl', hg', hr'⟩
  rw [PbCopyout.run]
  split
  · exact key _ (h.lists.coverage _) h.given (h.records.coverage _)
  · exact key _ h.lists h.given h.records

theorem map_nodes_set {l : List CopyoutInfo} {i : ℕ} {r r' : CopyoutInfo} (hr : l[i]? = some r)
    (hnodes : r'.nodes = r.nodes) :
    (l.set i r').map CopyoutInfo.nodes = l.map CopyoutInfo.nodes := by
  obtain ⟨hlt, rfl⟩ := List.getElem?_eq_some_iff.mp hr
  rw [List.map_set, hnodes, ← List.getElem_map CopyoutInfo.nodes (h := by simpa using hlt),
    List.set_getElem_self]

/-- A record changes, but not its nodes. -/
theorem Records.setInfo {m : MatrixStorageInfo} {completed : Finset ℕ} (h : Records S m completed)
    {i : ℕ} {r r' : CopyoutInfo} (hr : m.infos[i]? = some r) (hnodes : r'.nodes = r.nodes)
    (hinfo : InfoInv S completed r') :
    Records S { m with infos := m.infos.set i r' } completed := by
  have hmap := map_nodes_set hr hnodes
  have hmem : ∀ (l : List CopyoutInfo) n, (∃ x ∈ l, n ∈ x.nodes) ↔
      ∃ D ∈ l.map CopyoutInfo.nodes, n ∈ D := by
    intro l n
    simp
  refine ⟨?_, ?_, ?_, h.waiting, h.given, ?_⟩
  · intro n
    show n ∈ m.doneCompleteNodes ↔ ∃ x ∈ m.infos.set i r', n ∈ x.nodes
    rw [hmem, hmap, ← hmem, h.mem_iff]
  · show (m.infos.set i r').Pairwise _
    have hdisjoint := List.pairwise_map.mpr h.disjoint
    rw [← hmap] at hdisjoint
    exact List.pairwise_map.mp hdisjoint
  · intro n j hj
    show ∃ x, (m.infos.set i r')[j]? = some x ∧ n ∈ x.nodes
    obtain ⟨x, hx, hn⟩ := h.copyMap n j hj
    have hget : ((m.infos.set i r').map CopyoutInfo.nodes)[j]? = some x.nodes := by
      rw [hmap, List.getElem?_map, hx]
      rfl
    rw [List.getElem?_map] at hget
    obtain ⟨y, hy, hyx⟩ := Option.map_eq_some_iff.mp hget
    exact ⟨y, hy, hyx ▸ hn⟩
  · intro x hx
    rcases List.mem_or_eq_of_mem_set hx with hx | rfl
    · exact h.info x hx
    · exact hinfo

/-- A node has one record. -/
theorem eq_of_common {l : List CopyoutInfo} (h : l.Pairwise fun a b => Disjoint a.nodes b.nodes)
    {r r' : CopyoutInfo} (hr : r ∈ l) (hr' : r' ∈ l) {n : ℕ} (hn : n ∈ r.nodes)
    (hn' : n ∈ r'.nodes) : r = r' := by
  induction l with
  | nil => cases hr
  | cons x l ih =>
      obtain ⟨hx, hl⟩ := List.pairwise_cons.mp h
      rcases List.mem_cons.mp hr with rfl | hrl <;> rcases List.mem_cons.mp hr' with rfl | hrl'
      · rfl
      · exact absurd hn' (Finset.disjoint_left.mp (hx r' hrl') hn)
      · exact absurd hn (Finset.disjoint_left.mp (hx r hrl) hn')
      · exact ih hl hrl hrl'

/-- A task leaves the queue: it has no data, or its record is closed. -/
theorem Records.complete {m : MatrixStorageInfo} {completed : Finset ℕ}
    (h : Records S m completed) (hk : (S.node k).nonempty = true →
      ∃ r ∈ m.infos, k ∈ r.nodes ∧ r.done = true) :
    Records S { m with copyMap := Function.update m.copyMap k none } (insert k completed) := by
  refine ⟨h.mem_iff, h.disjoint, ?_, ?_, ?_, ?_⟩
  · intro n i hi
    change Function.update m.copyMap k none n = some i at hi
    by_cases hn : n = k
    · rw [hn, Function.update_self] at hi
      cases hi
    · rw [Function.update_of_ne hn] at hi
      exact h.copyMap n i hi
  · intro n hn hnot
    have hnk : n ≠ k := fun heq => hnot (heq ▸ Finset.mem_insert_self n completed)
    show ∃ i, Function.update m.copyMap k none n = some i
    rw [Function.update_of_ne hnk]
    exact h.waiting n hn fun hc => hnot (Finset.mem_insert_of_mem hc)
  · intro n hn hne
    rcases Finset.mem_insert.mp hn with rfl | hn
    · obtain ⟨r, hr, hnr, -⟩ := hk hne
      exact (h.mem_iff n).mpr ⟨r, hr, hnr⟩
    · exact h.given n hn hne
  · intro r hr
    obtain ⟨hone, hby, hiff, hno, hclosed⟩ := h.info r hr
    refine ⟨hone, hby, hiff, hno, ?_⟩
    intro n hn hne hc
    rcases Finset.mem_insert.mp hc with rfl | hc
    · obtain ⟨r', hr', hn', hdone⟩ := hk hne
      rw [eq_of_common h.disjoint hr hr' hn hn']
      exact hdone
    · exact hclosed n hn hne hc

/-- **A POLL**: nothing happens; or the task is complete, without data or with a closed record; or
    it copies the data of a record that has been read. -/
theorem copyout_cases (S : Schedule) (s : State) (k : ℕ) :
    copyout S s k = s ∨
    (copyout S s k = s.complete k ∧ ((S.node k).nonempty = true →
      ∃ i r, s.storage.copyMap k = some i ∧ s.storage.infos[i]? = some r ∧ r.done = true)) ∨
    ∃ i r, s.storage.copyMap k = some i ∧ s.storage.infos[i]? = some r ∧ r.done = false ∧
      copyout S s k =
        (s.setInfo i { r with done := true, copiedBy := r.copiedBy ++ [k] }).complete k := by
  rw [copyout]
  split
  · split
    · exact .inl rfl
    · rename_i i hi
      split
      · exact .inl rfl
      · rename_i r hr
        split
        · rename_i hdone
          exact .inr (.inl ⟨rfl, fun _ => ⟨i, r, hi, hr, hdone⟩⟩)
        · rename_i hdone
          split
          · exact .inr (.inr ⟨i, r, hi, hr, Bool.not_eq_true _ ▸ hdone, rfl⟩)
          · exact .inl rfl
  · rename_i hempty
    exact .inr (.inl ⟨rfl, fun h => absurd h hempty⟩)

theorem Inv.poll (h : Inv S s) (k : ℕ) : Inv S (copyout S s k) := by
  rcases copyout_cases S s k with heq | ⟨heq, hdone⟩ | ⟨i, r, hi, hr, hopen, heq⟩
  · rw [heq]
    exact h
  · rw [heq]
    refine ⟨⟨h.lists.doneRemaining, h.lists.remaining, h.lists.complete⟩, h.given,
      h.records.complete fun hne => ?_⟩
    obtain ⟨i, r, hi, hr, hd⟩ := hdone hne
    obtain ⟨r', hr', hk⟩ := h.records.copyMap k i hi
    obtain rfl := Option.some.inj (hr.symm.trans hr')
    exact ⟨r, List.mem_of_getElem? hr, hk, hd⟩
  · rw [heq]
    obtain ⟨r', hr', hk⟩ := h.records.copyMap k i hi
    obtain rfl := Option.some.inj (hr.symm.trans hr')
    obtain ⟨hone, hby, hiff, hno, hclosed⟩ := h.records.info r (List.mem_of_getElem? hr)
    -- an open record has data, and nobody has copied it
    have hdata : ¬ (r.coverage = 0 ∨ r.copiedBy ≠ []) := fun hor => by
      rw [hiff.mpr hor] at hopen
      cases hopen
    have hnone : r.copiedBy = [] := by
      by_contra hne
      exact hdata (.inr hne)
    have hinfo : InfoInv S s.completed { r with done := true, copiedBy := r.copiedBy ++ [k] } :=
      ⟨by simp [hnone], by simp [hnone, hk], by simp,
        fun hzero => absurd (.inl hzero) hdata, fun _ _ _ _ => rfl⟩
    have hset := (h.records.setInfo hr · hinfo) rfl
    have hlt := (List.getElem?_eq_some_iff.mp hr).1
    refine ⟨⟨h.lists.doneRemaining, h.lists.remaining, h.lists.complete⟩, h.given,
      hset.complete fun _ => ⟨_, List.mem_set hlt _, hk, rfl⟩⟩

theorem Inv.read (h : Inv S s) {i : ℕ} {r : CopyoutInfo} (hr : s.storage.infos[i]? = some r) :
    Inv S (s.setInfo i { r with read := true }) := by
  obtain ⟨hone, hby, hiff, hno, hclosed⟩ := h.records.info r (List.mem_of_getElem? hr)
  exact ⟨⟨h.lists.doneRemaining, h.lists.remaining, h.lists.complete⟩, h.given,
    h.records.setInfo hr rfl ⟨hone, hby, hiff, hno, hclosed⟩⟩

theorem Inv.next (h : Inv S s) {a : Act} (hnext : next S s a = some t) : Inv S t := by
  cases a with
  | run k =>
      obtain ⟨-, ht⟩ := Option.ite_none_right_eq_some.mp hnext
      exact Option.some.inj ht ▸ h.run k
  | read i =>
      obtain ⟨r, hr, rfl⟩ := Option.map_eq_some_iff.mp hnext
      exact h.read hr
  | poll k =>
      obtain ⟨-, ht⟩ := Option.ite_none_right_eq_some.mp hnext
      exact Option.some.inj ht ▸ h.poll k

theorem inv_start (S : Schedule) : Inv S start := by
  refine ⟨⟨rfl, rfl, rfl⟩, fun n => ⟨fun h => absurd h (Finset.notMem_empty n), ?_⟩,
    ⟨fun n => ⟨fun h => absurd h (Finset.notMem_empty n), ?_⟩, List.Pairwise.nil, ?_, ?_, ?_, ?_⟩⟩
  · rintro ⟨ps, k, hps, -⟩
    exact absurd (List.prefix_nil.mp hps) (by simp)
  · rintro ⟨r, hr, -⟩
    cases hr
  · intro n i hi
    cases hi
  · intro n hn
    exact absurd hn (Finset.notMem_empty n)
  · intro n hn
    exact absurd hn (Finset.notMem_empty n)
  · intro r hr
    cases hr

theorem reachable_inv (h : Reachable (system S) s) : Inv S s := by
  refine Reachable.invariant (Inv S) h ?_ fun s a t hs hn => hs.next hn
  rintro s rfl
  exact inv_start S

end Steps

/-! ## The queue empties -/

section Queue

variable {S : Schedule} {s t : State}

/-- The nodes that have run and those that have been given a record are the same, and no task comes
    back. -/
structure Frame (s t : State) : Prop where
  finished : t.finished = s.finished
  done : t.storage.doneCompleteNodes = s.storage.doneCompleteNodes
  completed : s.completed ⊆ t.completed

theorem Frame.refl (s : State) : Frame s s := ⟨rfl, rfl, fun _ h => h⟩

theorem Frame.trans {u : State} (h : Frame s t) (h' : Frame t u) : Frame s u :=
  ⟨h'.finished.trans h.finished, h'.done.trans h.done, h.completed.trans h'.completed⟩

def AllRead (s : State) : Prop := ∀ r ∈ s.storage.infos, r.read = true

/-- Every read comes to its end. -/
theorem exists_allRead (h : Inv S s) :
    ∃ as t, RunOf (system S) s as t ∧ Inv S t ∧ Frame s t ∧ AllRead t := by
  have hreads : ∀ n ≤ s.storage.infos.length, ∃ as t, RunOf (system S) s as t ∧ Inv S t ∧ Frame s t ∧
      t.storage.infos.length = s.storage.infos.length ∧
      ∀ i < n, ∀ r, t.storage.infos[i]? = some r → r.read = true := by
    intro n
    induction n with
    | zero =>
        intro _
        exact ⟨[], s, RunOf.nil s, h, Frame.refl s, rfl, fun _ hi => absurd hi (Nat.not_lt_zero _)⟩
    | succ n ih =>
        intro hn
        obtain ⟨as, t, hrun, hinv, hframe, hlen, hread⟩ := ih (Nat.le_of_succ_le hn)
        obtain ⟨r, hr⟩ : ∃ r, t.storage.infos[n]? = some r :=
          ⟨_, List.getElem?_eq_getElem (hlen ▸ hn)⟩
        refine ⟨as ++ [.read n], t.setInfo n { r with read := true }, hrun.snoc ?_, hinv.read hr,
          hframe.trans ⟨rfl, rfl, fun _ h => h⟩, ?_, ?_⟩
        · show (t.storage.infos[n]?).map _ = _
          rw [hr]
          rfl
        · exact List.length_set.trans hlen
        · intro i hi r' hr'
          change (t.storage.infos.set n _)[i]? = some r' at hr'
          by_cases hin : i = n
          · subst hin
            rw [List.getElem?_set_self (hlen ▸ hn)] at hr'
            rw [← Option.some.inj hr']
          · rw [List.getElem?_set_ne (Ne.symm hin)] at hr'
            exact hread i (by omega) r' hr'
  obtain ⟨as, t, hrun, hinv, hframe, hlen, hread⟩ := hreads _ le_rfl
  refine ⟨as, t, hrun, hinv, hframe, fun r hr => ?_⟩
  obtain ⟨i, hi, hget⟩ := List.getElem_of_mem hr
  exact hread i (hlen ▸ hi) r (List.getElem?_eq_some_iff.mpr ⟨hi, hget⟩)

/-- With all records read, a task that has no data, or whose node has a record, is complete after
    a poll. -/
theorem poll_completes (h : Inv S s) (hread : AllRead s) {k : ℕ}
    (hk : (S.node k).nonempty = true → k ∈ s.storage.doneCompleteNodes) (hnot : k ∉ s.completed) :
    Frame s (copyout S s k) ∧ AllRead (copyout S s k) ∧ k ∈ (copyout S s k).completed := by
  have hself : k ∈ insert k s.completed := Finset.mem_insert_self k _
  have hsub : s.completed ⊆ insert k s.completed := Finset.subset_insert k _
  by_cases hne : (S.node k).nonempty = true
  · obtain ⟨i, hi⟩ := h.records.waiting k (hk hne) hnot
    obtain ⟨r, hr, -⟩ := h.records.copyMap k i hi
    have hrr := hread r (List.mem_of_getElem? hr)
    rw [copyout, if_pos hne]
    simp only [hi, hr, hrr, if_true]
    split
    · exact ⟨⟨rfl, rfl, hsub⟩, hread, hself⟩
    · refine ⟨⟨rfl, rfl, hsub⟩, fun x hx => ?_, hself⟩
      rcases List.mem_or_eq_of_mem_set hx with hx | rfl
      · exact hread x hx
      · rfl
  · rw [copyout, if_neg hne]
    exact ⟨⟨rfl, rfl, hsub⟩, hread, hself⟩

/-- Then the tasks of a list of nodes leave the queue. -/
theorem exists_completed (ks : List ℕ) (h : Inv S s) (hread : AllRead s)
    (hks : ∀ k ∈ ks, (S.node k).hasTask = true ∧
      ((S.node k).nonempty = true → k ∈ s.storage.doneCompleteNodes)) :
    ∃ as t, RunOf (system S) s as t ∧ Inv S t ∧ Frame s t ∧ ∀ k ∈ ks, k ∈ t.completed := by
  induction ks generalizing s with
  | nil => exact ⟨[], s, RunOf.nil s, h, Frame.refl s, fun _ hk => nomatch hk⟩
  | cons k ks ih =>
      obtain ⟨htask, hk⟩ := hks k List.mem_cons_self
      by_cases hc : k ∈ s.completed
      · obtain ⟨as, t, hrun, hinv, hframe, hall⟩ :=
          ih h hread fun j hj => hks j (List.mem_cons_of_mem _ hj)
        refine ⟨as, t, hrun, hinv, hframe, fun j hj => ?_⟩
        rcases List.mem_cons.mp hj with rfl | hj
        · exact hframe.completed hc
        · exact hall j hj
      · obtain ⟨hframe₁, hread₁, hin⟩ := poll_completes h hread hk hc
        obtain ⟨as, t, hrun, hinv, hframe, hall⟩ := ih (h.poll k) hread₁ fun j hj => by
          rw [hframe₁.done]
          exact hks j (List.mem_cons_of_mem _ hj)
        refine ⟨.poll k :: as, t, RunOf.cons ?_ hrun, hinv, hframe₁.trans hframe, fun j hj => ?_⟩
        · exact if_pos ⟨htask, hc⟩
        · rcases List.mem_cons.mp hj with rfl | hj
          · exact hframe.completed hin
          · exact hall j hj

end Queue

/-! ## Released once -/

/-- With immediate copy-out everywhere, groups are released when they are finished. -/
theorem given_iff_released {S : Schedule} (hS : ∀ k, (S.node k).gpuCopyOut = .immediate)
    (fs : List ℕ) (n : ℕ) : Given S fs n ↔ Released S fs n := by
  have hcopied : ∀ fs, copied S fs = fs := by
    intro fs
    refine List.filter_eq_self.mpr fun k _ => ?_
    rw [hS k]
    rfl
  constructor
  · rintro ⟨ps, k, hps, -, G, hG, hn, hall⟩
    rw [registered, hcopied] at hG
    obtain ⟨j, hj, hjG⟩ := List.mem_flatMap.mp hG
    refine ⟨G, ?_, hn, fun i hi => ?_⟩
    · rw [registered, hcopied]
      exact List.mem_flatMap.mpr ⟨j, hps.subset hj, hjG⟩
    · rw [hcopied]
      exact hps.subset (hcopied (ps ++ [k]) ▸ hall i hi)
  · intro hrel
    rcases List.eq_nil_or_concat fs with rfl | ⟨ps, k, rfl⟩
    · obtain ⟨G, hG, -⟩ := hrel
      cases hG
    · rw [List.concat_eq_append] at hrel ⊢
      exact ⟨ps, k, List.prefix_rfl, hS k, hrel⟩

/-- Two nodes with a group, both with data. -/
def pair : Schedule where
  node _ := ⟨[{0, 1}], .immediate, true, 4⟩
  countOnGpu := 8

/-- Nodes 0 and 1 are a group; the data of node 1 may stay on the GPU. -/
def mixed : Schedule where
  node k := ⟨[{0, 1}], if k = 0 then .immediate else .pending, true, 4⟩
  countOnGpu := 8

/-- Node 0 has no data and is a group of its own. -/
def apart : Schedule where
  node k := if k = 0 then ⟨[{0}], .immediate, false, 0⟩ else ⟨[{1, 2}], .immediate, true, 4⟩
  countOnGpu := 8

/-- The record of node 0 is of the data of node 1.  No task copies it, and all are complete. -/
theorem data_left : ∃ s, Reachable (system apart) s ∧ s.completed = {0, 1, 2} ∧
    ∃ r ∈ s.storage.infos, r.coverage = 4 ∧ r.copiedBy = [] := by
  obtain ⟨s, hs, hv⟩ := exists_of_exec_map (system apart) (fun s => (s.completed, s.storage.infos))
    ({0, 1, 2}, [⟨{0}, 4, true, false, []⟩, ⟨{1, 2}, 4, true, true, [1]⟩])
    [.run 1, .run 0, .run 2, .read 0, .read 1, .poll 0, .poll 1, .poll 2] (s := start) rfl
    (by decide +kernel)
  have hinfos : s.storage.infos = [⟨{0}, 4, true, false, []⟩, ⟨{1, 2}, 4, true, true, [1]⟩] :=
    congrArg Prod.snd hv
  refine ⟨s, hs, congrArg Prod.fst hv, ⟨{0}, 4, true, false, []⟩, ?_, rfl, rfl⟩
  rw [hinfos]
  exact List.mem_cons_self

end PbCopyout
