import PetaBricks.MaximaWrapperModel

/-! # Delayed and cached answers are Maxima's

    Beside the wrapper runs one that sends every assumption at once and keeps
    nothing (`Direct`).  The invariant says that the wrapper's process is
    behind by what is pending, and that every cached list is what Maxima
    answers now (`Inv`).  A command that is no solver only reads the lists.
    `retrySolve` writes to the list it got, and keeps the invariant if it
    writes what was there (`Keeps`), or if there is no cache.

    So in a run whose steps do that, every answer is Maxima's
    (`answers_right`), and a `minSolve` that trims a cached list makes the next
    answer wrong (`minSolve_spoils_cache`). -/

namespace PbMaximaWrapper

open PbOrderedMap (OrderedSet)
open PbMaxima (TryCompareResult)

/-! ## Without delay -/

/-- A process to which everything is sent at once. -/
structure Direct where
  maxima : Contexts
  stackDepth : Nat

section Sending

variable {F : Type} (fm : Formulas F)

def Direct.send (d : Direct) : Op F → Direct
  | .pushContext => ⟨d.maxima.exec (.supcontext (d.stackDepth + 1)), d.stackDepth + 1⟩
  | .popContext => ⟨d.maxima.exec (.killcontext d.stackDepth), d.stackDepth - 1⟩
  | .assume fact => ⟨d.maxima.exec (.fact (assumeText fm fact)), d.stackDepth⟩
  | .declareInteger var => ⟨d.maxima.exec (.fact (declareText var)), d.stackDepth⟩
  | .query _ => d
  | .retrySolve _ _ _ => d

/-- After some operations. -/
def Direct.after (ops : List (Op F)) : Direct := ops.foldl (Direct.send fm) ⟨[(0, ∅)], 0⟩

end Sending

/-! ## Facts -/

namespace Contexts

/-- Facts assumed in the current context. -/
def addAll (s : Finset String) : Contexts → Contexts
  | [] => []
  | l :: c => (l.1, s ∪ l.2) :: c

theorem addAll_empty (c : Contexts) : c.addAll ∅ = c := by
  cases c with
  | nil => rfl
  | cons l c => rw [addAll, Finset.empty_union]

theorem addAll_insert (f : String) (s : Finset String) (c : Contexts) :
    c.addAll (insert f s) = (c.addAll s).assume f := by
  cases c with
  | nil => rfl
  | cons l c =>
      show (l.1, insert f s ∪ l.2) :: c = (l.1, insert f (s ∪ l.2)) :: c
      rw [Finset.insert_union]

theorem addAll_assume (f : String) (s : Finset String) (c : Contexts) :
    (c.assume f).addAll s = c.addAll (insert f s) := by
  cases c with
  | nil => rfl
  | cons l c =>
      show (l.1, s ∪ insert f l.2) :: c = (l.1, insert f s ∪ l.2) :: c
      rw [Finset.union_insert, Finset.insert_union]

theorem map_fst_addAll (s : Finset String) (c : Contexts) :
    (c.addAll s).map Prod.fst = c.map Prod.fst := by
  cases c <;> rfl

/-- Facts sent one after the other. -/
theorem foldl_assume (l : List String) (c : Contexts) :
    l.foldl (fun c f => c.assume f) c = c.addAll l.toFinset := by
  induction l generalizing c with
  | nil => exact c.addAll_empty.symm
  | cons f l ih =>
      rw [List.foldl_cons, ih, addAll_assume, List.toFinset_cons]

end Contexts

section Wrapping

variable {F : Type} {M : Maxima F} {caching : Bool} {fm : Formulas F} {d : Direct}
  {w w' w'' : MaximaWrapper F}

/-! ## The invariant -/

/-- The names of the contexts, from the current one to the initial one. -/
def contextNames (depth : Nat) : List Nat := (List.range (depth + 1)).reverse

theorem names_succ (depth : Nat) :
    contextNames (depth + 1) = (depth + 1) :: contextNames depth := by
  rw [contextNames, List.range_succ, List.reverse_concat]
  rfl

theorem mem_names {n depth : Nat} : n ∈ contextNames depth ↔ n ≤ depth := by
  rw [contextNames, List.mem_reverse, List.mem_range, Nat.lt_succ_iff]

/-- The process is behind by what is pending, and the cache is right. -/
structure Inv (M : Maxima F) (caching : Bool) (d : Direct) (w : MaximaWrapper F) : Prop where
  names : w.maxima.map Prod.fst = contextNames d.stackDepth
  sent : d.maxima = w.maxima.addAll w.pendingAssume.keys.toFinset
  cached : ∀ text rv, (Command.query text, rv) ∈ w.cache →
    w.lists[rv]? = some (M.answer w.maxima.facts text)
  supcontext : ∀ n rv, (Command.supcontext n, rv) ∈ w.cache → n ≤ d.stackDepth
  killcontext : ∀ n rv, (Command.killcontext n, rv) ∉ w.cache
  uncached : caching = false → w.cache = []

/-- The answers that were added are what Maxima answers with all facts sent. -/
def Answered (M : Maxima F) (d : Direct) (w w' : MaximaWrapper F) : Prop :=
  ∃ new, w'.answers = w.answers ++ new ∧ ∀ e ∈ new, e.2 = M.answer d.maxima.facts e.1

theorem Answered.of_eq (h : w'.answers = w.answers) : Answered M d w w' :=
  ⟨[], h.trans (List.append_nil _).symm, nofun⟩

/-- What a command does beside: the answers it adds are right, and lists that may be cached stay
    as they are. -/
structure Goes (M : Maxima F) (caching : Bool) (d : Direct) (w w' : MaximaWrapper F) : Prop where
  depth : w'.stackDepth = w.stackDepth
  answered : Answered M d w w'
  kept : caching = true → ∀ (rv : Nat) l, w.lists[rv]? = some l → w'.lists[rv]? = some l

theorem Goes.refl : Goes M caching d w w :=
  ⟨rfl, .of_eq rfl, fun _ _ _ h => h⟩

theorem Goes.trans (h : Goes M caching d w w') (h' : Goes M caching d w' w'') :
    Goes M caching d w w'' := by
  obtain ⟨new, hnew, hright⟩ := h.answered
  obtain ⟨new', hnew', hright'⟩ := h'.answered
  refine ⟨h'.depth.trans h.depth, ⟨new ++ new', ?_, List.forall_mem_append.mpr ⟨hright, hright'⟩⟩, ?_⟩
  · rw [hnew', hnew, List.append_assoc]
  · exact fun hc rv l hl => h'.kept hc rv l (h.kept hc rv l hl)

/-! ## Commands -/

theorem foldl_runCommandRaw (M : Maxima F) (l : List String) (w : MaximaWrapper F) :
    ∃ new, l.foldl (fun w f => (runCommandRaw M (.fact f) w).2) w =
      { w with maxima := w.maxima.addAll l.toFinset, lists := w.lists ++ new } := by
  induction l generalizing w with
  | nil =>
      refine ⟨[], ?_⟩
      rw [List.toFinset_nil, Contexts.addAll_empty, List.append_nil]
      rfl
  | cons f l ih =>
      obtain ⟨new, hnew⟩ := ih (runCommandRaw M (.fact f) w).2
      refine ⟨[M.result w.maxima (.fact f)] ++ new, ?_⟩
      rw [List.foldl_cons, hnew, List.toFinset_cons, ← Contexts.addAll_assume,
        ← List.append_assoc]
      rfl

/-- **NOTHING IS PENDING** after the delayed assumptions were sent. -/
theorem Inv.flushed (h : Inv M caching d w) :
    Inv M caching d (flush M w) ∧ (flush M w).maxima = d.maxima ∧
      (flush M w).pendingAssume = ∅ ∧ (flush M w).answers = w.answers ∧
      ∀ (rv : Nat) l, w.lists[rv]? = some l → (flush M w).lists[rv]? = some l := by
  by_cases hempty : w.pendingAssume.keys = []
  · have hpending : w.pendingAssume = ∅ := by
      refine PbOrderedMap.OrderedMap.ext_mem ?_
      intro f
      rw [← PbOrderedMap.OrderedMap.mem_keys, hempty]
      simp
    have hsent : w.maxima = d.maxima := by
      rw [h.sent, hempty, List.toFinset_nil, Contexts.addAll_empty]
    rw [flush, if_pos hempty]
    exact ⟨h, hsent, hpending, rfl, fun _ _ hl => hl⟩
  · obtain ⟨new, hnew⟩ := foldl_runCommandRaw M w.pendingAssume.keys
      { w with pendingAssume := ∅ }
    rw [flush, if_neg hempty, hnew]
    refine ⟨⟨?_, ?_, nofun, nofun, nofun, fun _ => rfl⟩, h.sent.symm, rfl, rfl, ?_⟩
    · show (w.maxima.addAll _).map Prod.fst = _
      rw [Contexts.map_fst_addAll]
      exact h.names
    · show d.maxima = (w.maxima.addAll w.pendingAssume.keys.toFinset).addAll ∅
      rw [Contexts.addAll_empty]
      exact h.sent
    · intro rv l hl
      show (w.lists ++ new)[rv]? = some l
      exact List.getElem?_append_left (List.getElem?_eq_some_iff.mp hl).1 ▸ hl

theorem flush_of_empty (h : w.pendingAssume = ∅) : flush M w = w := by
  rw [flush, if_pos]
  rw [h]
  rfl

theorem flush_stackDepth (w : MaximaWrapper F) : (flush M w).stackDepth = w.stackDepth := by
  rw [flush]
  split_ifs
  · rfl
  · obtain ⟨new, hnew⟩ := foldl_runCommandRaw M w.pendingAssume.keys
      { w with pendingAssume := ∅ }
    rw [hnew]
    rfl

theorem runCommand_stackDepth (cmd : Command) (w : MaximaWrapper F) :
    (runCommand M caching cmd w).2.stackDepth = w.stackDepth := by
  rw [runCommand]
  cases (flush M w).cache.find? fun e => e.1 = cmd with
  | some e => exact flush_stackDepth w
  | none => cases caching <;> exact flush_stackDepth w

theorem getElem?_append_of_some {α : Type} {ls new : List α} {rv : Nat} {l : α}
    (h : ls[rv]? = some l) : (ls ++ new)[rv]? = some l := by
  rw [List.getElem?_append_left (List.getElem?_eq_some_iff.mp h).1]
  exact h

/-- A command that is kept in the cache, or not. -/
theorem Inv.store (h : Inv M caching d w) {cmd : Command} {rv : Nat}
    (hquery : ∀ text, cmd = .query text →
      w.lists[rv]? = some (M.answer w.maxima.facts text))
    (hsup : ∀ n, cmd = .supcontext n → n ≤ d.stackDepth) (hkill : ∀ n, cmd ≠ .killcontext n) :
    Inv M caching d (if caching then { w with cache := (cmd, rv) :: w.cache } else w) := by
  cases caching with
  | false => exact h
  | true =>
      refine ⟨h.names, h.sent, ?_, ?_, ?_, nofun⟩
      · intro text rv' hmem
        rcases List.mem_cons.mp hmem with heq | hmem
        · cases heq
          exact hquery text rfl
        · exact h.cached text rv' hmem
      · intro n rv' hmem
        rcases List.mem_cons.mp hmem with heq | hmem
        · cases heq
          exact hsup n rfl
        · exact h.supcontext n rv' hmem
      · intro n rv' hmem
        rcases List.mem_cons.mp hmem with heq | hmem
        · cases heq
          exact hkill n rfl
        · exact h.killcontext n rv' hmem

/-- **A QUERY** is answered as Maxima does with all facts sent, from the cache or not. -/
theorem Inv.runCommand_query (h : Inv M caching d w) (text : String) :
    Inv M caching d (runCommand M caching (.query text) w).2 ∧
      (runCommand M caching (.query text) w).2.lists[(runCommand M caching (.query text) w).1]? =
        some (M.answer d.maxima.facts text) ∧
      (runCommand M caching (.query text) w).2.answers = w.answers ∧
      ∀ (rv : Nat) l, w.lists[rv]? = some l →
        (runCommand M caching (.query text) w).2.lists[rv]? = some l := by
  obtain ⟨hinv, hmaxima, -, hanswers, hkept⟩ := h.flushed
  rw [runCommand]
  generalize flush M w = v at hinv hmaxima hanswers hkept
  rw [← hmaxima]
  cases hfind : v.cache.find? fun e => e.1 = .query text with
  | some e =>
      obtain ⟨cmd, rv⟩ := e
      have hcmd := List.find?_some hfind
      obtain rfl : cmd = .query text := of_decide_eq_true hcmd
      exact ⟨hinv, hinv.cached text rv (List.mem_of_find?_eq_some hfind), hanswers, hkept⟩
  | none =>
      have hlast : (v.lists ++ [M.answer v.maxima.facts text])[v.lists.length]? =
          some (M.answer v.maxima.facts text) := List.getElem?_concat_length
      have hraw : Inv M caching d (runCommandRaw M (.query text) v).2 :=
        ⟨hinv.names, hinv.sent,
          fun t rv hmem => getElem?_append_of_some (hinv.cached t rv hmem),
          hinv.supcontext, hinv.killcontext, hinv.uncached⟩
      refine ⟨hraw.store ?_ nofun nofun, ?_⟩
      · intro t ht
        cases ht
        exact hlast
      cases caching with
      | false => exact ⟨hlast, hanswers, fun rv l hl => getElem?_append_of_some (hkept rv l hl)⟩
      | true => exact ⟨hlast, hanswers, fun rv l hl => getElem?_append_of_some (hkept rv l hl)⟩

theorem notMem_names_succ (depth : Nat) : depth + 1 ∉ contextNames depth := by
  rw [mem_names]
  exact Nat.not_succ_le_self depth

/-- A context command is never in the cache when it is run. -/
theorem Inv.find_supcontext (h : Inv M caching d w) :
    (w.cache.find? fun e => e.1 = .supcontext (d.stackDepth + 1)) = none := by
  rw [List.find?_eq_none]
  rintro ⟨cmd, rv⟩ he hcmd
  obtain rfl : cmd = .supcontext (d.stackDepth + 1) := of_decide_eq_true hcmd
  exact Nat.not_succ_le_self _ (h.supcontext _ rv he)

theorem Inv.find_killcontext (h : Inv M caching d w) (n : Nat) :
    (w.cache.find? fun e => e.1 = .killcontext n) = none := by
  rw [List.find?_eq_none]
  rintro ⟨cmd, rv⟩ he hcmd
  obtain rfl : cmd = .killcontext n := of_decide_eq_true hcmd
  exact h.killcontext n rv he

/-- **A CONTEXT IS ENTERED** in both processes. -/
theorem Inv.runCommand_supcontext (h : Inv M caching d w) (fm : Formulas F) :
    Inv M caching (d.send fm .pushContext)
      (runCommand M caching (.supcontext (d.stackDepth + 1)) w).2 ∧
    (runCommand M caching (.supcontext (d.stackDepth + 1)) w).2.answers = w.answers := by
  obtain ⟨hinv, hmaxima, hpending, hanswers, -⟩ := h.flushed
  rw [runCommand]
  generalize flush M w = v at hinv hmaxima hpending hanswers
  rw [hinv.find_supcontext]
  have hexec : v.maxima.exec (.supcontext (d.stackDepth + 1)) =
      (d.stackDepth + 1, ∅) :: v.maxima := by
    rw [Contexts.exec, hinv.names, if_neg (notMem_names_succ _)]
  have hfacts : Contexts.facts ((d.stackDepth + 1, ∅) :: v.maxima) = v.maxima.facts :=
    Finset.empty_union _
  have hraw : Inv M caching (d.send fm .pushContext)
      (runCommandRaw M (.supcontext (d.stackDepth + 1)) v).2 := by
    refine ⟨?_, ?_, ?_, ?_, hinv.killcontext, hinv.uncached⟩
    · show (v.maxima.exec (.supcontext (d.stackDepth + 1))).map Prod.fst = contextNames (d.stackDepth + 1)
      rw [hexec, names_succ, ← hinv.names]
      rfl
    · show d.maxima.exec (.supcontext (d.stackDepth + 1)) =
        (v.maxima.exec (.supcontext (d.stackDepth + 1))).addAll v.pendingAssume.keys.toFinset
      rw [hpending, ← hmaxima]
      exact (Contexts.addAll_empty _).symm
    · intro text rv hmem
      show (v.lists ++ [_])[rv]? =
        some (M.answer (v.maxima.exec (.supcontext (d.stackDepth + 1))).facts text)
      rw [hexec, hfacts]
      exact getElem?_append_of_some (hinv.cached text rv hmem)
    · intro n rv hmem
      exact Nat.le_succ_of_le (hinv.supcontext n rv hmem)
  refine ⟨hraw.store nofun ?_ nofun, ?_⟩
  · intro n hn
    cases hn
    exact Nat.le_refl _
  · cases caching <;> exact hanswers

/-- **A CONTEXT IS LEFT**, with what is pending in it and with the cache. -/
theorem Inv.killed (h : Inv M caching d w) (hdepth : 0 < d.stackDepth) (fm : Formulas F) :
    Inv M caching (d.send fm .popContext) (clearCache (runCommand M caching
      (.killcontext d.stackDepth) { w with pendingAssume := ∅, stackDepth := d.stackDepth - 1 }).2) ∧
    (runCommand M caching (.killcontext d.stackDepth)
      { w with pendingAssume := ∅, stackDepth := d.stackDepth - 1 }).2.answers = w.answers := by
  obtain ⟨n, hn⟩ : ∃ n, d.stackDepth = n + 1 := Nat.exists_eq_succ_of_ne_zero (by omega)
  obtain ⟨l, c, hc, hl, hnames⟩ : ∃ l c, w.maxima = l :: c ∧ l.1 = n + 1 ∧
      c.map Prod.fst = contextNames n := by
    have hnames := h.names
    rw [hn, names_succ] at hnames
    exact List.map_eq_cons_iff.mp hnames
  obtain ⟨p, c', rfl⟩ : ∃ p c', c = p :: c' := by
    refine List.exists_cons_of_ne_nil ?_
    rintro rfl
    have hzero : 0 ∈ contextNames n := mem_names.mpr (Nat.zero_le n)
    rw [← hnames] at hzero
    exact nomatch hzero
  have hkill : w.maxima.exec (.killcontext d.stackDepth) = p :: c' := by
    rw [hc, Contexts.exec, hl, hn]
    exact if_pos rfl
  have hkill' : d.maxima.exec (.killcontext d.stackDepth) = p :: c' := by
    rw [h.sent, hc, Contexts.addAll, Contexts.exec]
    exact if_pos (hl.trans hn.symm)
  rw [runCommand, flush_of_empty rfl, h.find_killcontext]
  refine ⟨⟨?_, ?_, nofun, nofun, nofun, fun _ => rfl⟩, ?_⟩
  · cases caching <;>
    · show (w.maxima.exec (.killcontext d.stackDepth)).map Prod.fst =
        contextNames (d.stackDepth - 1)
      rw [hkill, hnames, hn, Nat.add_sub_cancel]
  · cases caching <;>
    · show d.maxima.exec (.killcontext d.stackDepth) =
        (w.maxima.exec (.killcontext d.stackDepth)).addAll ∅
      rw [hkill, hkill', Contexts.addAll_empty]
  · cases caching <;> rfl

/-! ## Code that runs commands -/

/-- From a state with the invariant, the code keeps it, goes right, and ends as told. -/
def Triple {α : Type} (M : Maxima F) (caching : Bool) (d : Direct) (P : MaximaWrapper F → Prop)
    (m : Wrap F α) (Q : α → MaximaWrapper F → Prop) : Prop :=
  ∀ w, Inv M caching d w → P w →
    Inv M caching d (m w).2 ∧ Goes M caching d w (m w).2 ∧ ∀ a, (m w).1 = some a → Q a (m w).2

/-- What a list holds, if it may be in the cache. -/
def Holds (caching : Bool) (rv : Nat) (l : List F) (w : MaximaWrapper F) : Prop :=
  caching = true → w.lists[rv]? = some l

section Triples

variable {α β : Type} {P P' : MaximaWrapper F → Prop} {Q Q' : α → MaximaWrapper F → Prop}
  {R : β → MaximaWrapper F → Prop}

theorem Triple.ret {a : α} : Triple M caching d (Q a) (pure a) Q := by
  intro w hinv hP
  refine ⟨hinv, .refl, ?_⟩
  rintro _ ⟨⟩
  exact hP

theorem Triple.seq {m : Wrap F α} {f : α → Wrap F β} (hm : Triple M caching d P m Q)
    (hf : ∀ a, Triple M caching d (Q a) (f a) R) : Triple M caching d P (m >>= f) R := by
  intro w hinv hP
  obtain ⟨hinv', hgoes, hQ⟩ := hm w hinv hP
  have hbind : (m >>= f) w = match m w with
      | (some a, w) => f a w
      | (none, w) => (none, w) := by
    show (match (m w).1 with
      | some a => f a
      | none => (pure none : StateM (MaximaWrapper F) (Option β))) (m w).2 = _
    generalize m w = r
    match r with
    | (some _, _) => rfl
    | (none, _) => rfl
  rw [hbind]
  generalize m w = r at hinv' hgoes hQ
  match r with
  | (some a, w') =>
      obtain ⟨hinv'', hgoes', hR⟩ := hf a w' hinv' (hQ a rfl)
      exact ⟨hinv'', hgoes.trans hgoes', hR⟩
  | (none, w') => exact ⟨hinv', hgoes, nofun⟩

theorem Triple.conseq {m : Wrap F α} (h : Triple M caching d P m Q) (hP : ∀ w, P' w → P w)
    (hQ : ∀ a w, Q a w → Q' a w) : Triple M caching d P' m Q' := by
  intro w hinv hP'
  obtain ⟨hinv', hgoes, hend⟩ := h w hinv (hP w hP')
  exact ⟨hinv', hgoes, fun a ha => hQ a _ (hend a ha)⟩

/-- What lists hold is not lost. -/
theorem Triple.frame {m : Wrap F α} (h : Triple M caching d P m Q) (rv : Nat) (l : List F) :
    Triple M caching d (fun w => P w ∧ Holds caching rv l w) m
      (fun a w => Q a w ∧ Holds caching rv l w) := by
  rintro w hinv ⟨hP, hl⟩
  obtain ⟨hinv', hgoes, hend⟩ := h w hinv hP
  exact ⟨hinv', hgoes, fun a ha => ⟨hend a ha, fun hc => hgoes.kept hc rv l (hl hc)⟩⟩

theorem Triple.ite {c : Prop} [Decidable c] {m m' : Wrap F α}
    (h : c → Triple M caching d P m Q) (h' : ¬ c → Triple M caching d P m' Q) :
    Triple M caching d P (if c then m else m') Q := by
  by_cases hc : c
  · rw [if_pos hc]
    exact h hc
  · rw [if_neg hc]
    exact h' hc

theorem Triple.of_fact {p : Prop} {m : Wrap F α} (h : p → Triple M caching d P m Q) :
    Triple M caching d (fun w => p ∧ P w) m Q :=
  fun w hinv hP => h hP.1 w hinv hP.2

theorem list_triple (rv : Nat) :
    Triple M caching d P (list rv) (fun l w => l = w.list rv ∧ P w) := by
  intro w hinv hP
  refine ⟨hinv, .refl, ?_⟩
  rintro _ ⟨⟩
  exact ⟨rfl, hP⟩

theorem assertSome_triple (o : Option α) :
    Triple M caching d P (assertSome o) (fun a w => o = some a ∧ P w) := by
  intro w hinv hP
  exact ⟨hinv, .refl, fun a ha => ⟨ha, hP⟩⟩

theorem Triple.skip {a : α} : Triple M caching d P (pure a) (fun _ => P) :=
  fun _ hinv hP => ⟨hinv, .refl, fun _ _ => hP⟩

/-- What may be in the cache is written as it was. -/
theorem setList_triple {rv : Nat} {l l' : List F} :
    Triple M caching d (fun w => Holds caching rv l w ∧ (caching = true → l' = l)) (setList rv l')
      (fun _ => Holds caching rv l) := by
  rintro w hinv ⟨hl, hsame⟩
  show Inv M caching d (w.setList rv l') ∧ Goes M caching d w (w.setList rv l') ∧
    ∀ a, some () = some a → Holds caching rv l (w.setList rv l')
  cases caching with
  | true =>
      have hset : w.setList rv l' = w := by
        obtain ⟨hlt, hget⟩ := List.getElem?_eq_some_iff.mp (hl rfl)
        rw [hsame rfl, MaximaWrapper.setList, ← hget, List.set_getElem_self]
      rw [hset]
      exact ⟨hinv, .refl, fun _ _ => hl⟩
  | false =>
      have hcache : w.cache = [] := hinv.uncached rfl
      refine ⟨⟨hinv.names, hinv.sent, ?_, hinv.supcontext, hinv.killcontext, hinv.uncached⟩,
        ⟨rfl, .of_eq rfl, nofun⟩, fun _ _ => nofun⟩
      intro text rv' hmem
      rw [show (w.setList rv l').cache = [] from hcache] at hmem
      cases hmem

end Triples

/-! ## Queries -/

theorem query_apply (text : String) (w : MaximaWrapper F) :
    query M caching text w = (some (runCommand M caching (.query text) w).1,
      { (runCommand M caching (.query text) w).2 with
        answers := (runCommand M caching (.query text) w).2.answers ++
          [(text, (runCommand M caching (.query text) w).2.list
            (runCommand M caching (.query text) w).1)] }) := rfl

theorem list_of_lists {rv : Nat} {l : List F} (h : w.lists[rv]? = some l) : w.list rv = l := by
  rw [MaximaWrapper.list, List.getD_eq_getElem?_getD, h, Option.getD_some]

theorem query_triple (text : String) :
    Triple M caching d (fun _ => True) (query M caching text)
      (fun rv w => w.lists[rv]? = some (M.answer d.maxima.facts text)) := by
  intro w hinv _
  obtain ⟨hinv', hlist, hanswers, hkept⟩ := hinv.runCommand_query text
  rw [query_apply, list_of_lists hlist, hanswers]
  refine ⟨⟨hinv'.names, hinv'.sent, hinv'.cached, hinv'.supcontext, hinv'.killcontext,
    hinv'.uncached⟩, ⟨runCommand_stackDepth _ w, ⟨[(text, M.answer d.maxima.facts text)], rfl, ?_⟩, fun _ => hkept⟩, ?_⟩
  · intro e he
    obtain rfl := List.mem_singleton.mp he
    rfl
  · rintro _ ⟨⟩
    exact hlist

theorem retry_triple (cmd : String) (rslt : Nat) :
    Triple M caching d (fun w => w.lists[rslt]? = some (M.answer d.maxima.facts cmd))
      (retry M caching cmd rslt) (fun rv w => w.lists[rv]? = some (M.answer d.maxima.facts cmd)) := by
  refine .seq (list_triple rslt) fun l => ?_
  match l with
  | [] => exact (query_triple cmd).conseq (fun _ _ => trivial) (fun _ _ h => h)
  | _ :: _ => exact Triple.ret.conseq (fun _ h => h.2) (fun _ _ h => h)

theorem runCommandSingleOutput_triple (cmd : String) :
    Triple M caching d (fun _ => True) (runCommandSingleOutput M caching cmd)
      (fun f _ => M.answer d.maxima.facts cmd = [f]) := by
  refine .seq (query_triple cmd) fun rv => .seq (retry_triple cmd rv) fun rv' =>
    .seq (list_triple rv') fun l => ?_
  match l with
  | [f] =>
      refine Triple.ret.conseq ?_ (fun _ _ h => h)
      rintro w ⟨hl, hlist⟩
      rw [hl, list_of_lists hlist]
  | [] => exact (assertSome_triple none).conseq (fun _ h => h) nofun
  | _ :: _ :: _ => exact (assertSome_triple none).conseq (fun _ h => h) nofun

/-! ## Comparisons -/

/-- What `is` returns with some facts; nothing where it fails an assertion. -/
def isAnswer (M : Maxima F) (fm : Formulas F) (s : Finset String) (formula : String) :
    Option TryCompareResult :=
  match isOptimized formula with
  | some r => some r
  | none =>
      match M.answer s ("is(" ++ formula ++ ")") with
      | [f] => some (toResult (fm.toString f))
      | _ => none

/-- What `tryCompare` returns with some facts. -/
def tryCompareAnswer (M : Maxima F) (fm : Formulas F) (s : Finset String) (a : F) (op : String)
    (b : F) : Option TryCompareResult :=
  match if fm.toString a = fm.toString b then identical op else none with
  | some r => some r
  | none => isAnswer M fm s (compareText (fm.toString a) op (fm.toString b))

theorem is_triple (formula : String) :
    Triple M caching d (fun _ => True) (is M caching fm formula)
      (fun r _ => isAnswer M fm d.maxima.facts formula = some r) := by
  rw [is, isAnswer]
  cases isOptimized formula with
  | some r => exact Triple.ret.conseq (fun _ _ => rfl) (fun _ _ h => h)
  | none =>
      refine .seq (runCommandSingleOutput_triple _) fun f => Triple.ret.conseq ?_ (fun _ _ h => h)
      intro w hf
      rw [hf]

theorem tryCompare_triple (a : F) (op : String) (b : F) :
    Triple M caching d (fun _ => True) (tryCompare M caching fm a op b)
      (fun r _ => tryCompareAnswer M fm d.maxima.facts a op b = some r) := by
  rw [tryCompare, tryCompareAnswer]
  cases (if fm.toString a = fm.toString b then identical op else none) with
  | some r => exact Triple.ret.conseq (fun _ _ => rfl) (fun _ _ h => h)
  | none => exact is_triple _

/-! ## Solving -/

/-- Solving changes no list: there are results, or the parts have none either, and the first two
    results are not known to be in order. -/
structure Keeps (M : Maxima F) (fm : Formulas F) (s : Finset String) (eqs : List F)
    (var : String) (cmp : Option String) : Prop where
  parts : M.answer s (solveText fm eqs var) = [] → ∀ e ∈ eqs, fm.contains e var = true →
    M.answer s (solveText fm [e] var) = []
  untrimmed : ∀ c ∈ cmp, ∀ a b l, M.answer s (solveText fm eqs var) = a :: b :: l →
    ∀ x ∈ fm.rhs a, ∀ y ∈ fm.rhs b,
      tryCompareAnswer M fm s y c x ≠ some .YES ∧ tryCompareAnswer M fm s x c y ≠ some .YES

theorem Triple.framed {α : Type} {m : Wrap F α} {Q : α → MaximaWrapper F → Prop}
    (h : Triple M caching d (fun _ => True) m Q) (rv : Nat) (l : List F) :
    Triple M caching d (Holds caching rv l) m (fun a w => Q a w ∧ Holds caching rv l w) :=
  (h.frame rv l).conseq (fun _ hl => ⟨trivial, hl⟩) (fun _ _ h => h)

/-- What is known about a list holds where there is a cache. -/
theorem Holds.list_eq {rv : Nat} {l : List F} (h : Holds caching rv l w) (hc : caching = true) :
    w.list rv = l :=
  list_of_lists (h hc)

theorem extendWith_triple {rv : Nat} {var : String} {e : F}
    (he : caching = true → fm.contains e var = true →
      M.answer d.maxima.facts (solveText fm [e] var) = []) :
    Triple M caching d (Holds caching rv []) (extendWith M caching fm rv var e)
      (fun _ => Holds caching rv []) := by
  refine .ite (fun hcontains => ?_) (fun _ => Triple.skip)
  refine .seq ((query_triple _).framed rv []) fun r => .seq (list_triple rv) fun l =>
    .seq (list_triple r) fun l' => setList_triple.conseq ?_ (fun _ _ h => h)
  rintro w ⟨hl', hl, hr, hrv⟩
  refine ⟨hrv, fun hc => ?_⟩
  rw [hl, hl', hrv.list_eq hc, list_of_lists hr, he hc hcontains]
  rfl

theorem forM_triple {α : Type} {P : MaximaWrapper F → Prop} {f : α → Wrap F Unit} {l : List α}
    (h : ∀ e ∈ l, Triple M caching d P (f e) (fun _ => P)) :
    Triple M caching d P (l.forM f) (fun _ => P) := by
  induction l with
  | nil => exact Triple.skip
  | cons e l ih =>
      exact .seq (h e (List.mem_cons_self ..)) fun _ =>
        ih (fun e he => h e (List.mem_cons_of_mem _ he))

theorem solveParts_triple {rv : Nat} {eqs : List F} {var : String} {l : List F}
    (h : caching = true → l = [] → ∀ e ∈ eqs, fm.contains e var = true →
      M.answer d.maxima.facts (solveText fm [e] var) = []) :
    Triple M caching d (Holds caching rv l) (solveParts M caching fm rv eqs var)
      (fun _ => Holds caching rv l) := by
  refine .seq (list_triple rv) fun l' => ?_
  match l' with
  | _ :: _ => exact Triple.skip.conseq (fun _ h => h.2) (fun _ _ h => h)
  | [] =>
      cases caching with
      | true =>
          rintro w hinv ⟨hempty, hl⟩
          obtain rfl : l = [] := (hl.list_eq rfl).symm.trans hempty.symm
          have hparts : Triple M true d (Holds true rv [])
              (eqs.forM (extendWith M true fm rv var)) (fun _ => Holds true rv []) :=
            forM_triple fun e he => extendWith_triple fun _ hcontains => h rfl rfl e he hcontains
          exact hparts w hinv hl
      | false =>
          have hparts : Triple M false d (Holds false rv [])
              (eqs.forM (extendWith M false fm rv var)) (fun _ => Holds false rv []) :=
            forM_triple fun e he => extendWith_triple nofun
          exact hparts.conseq (fun _ _ => nofun) (fun _ _ _ => nofun)

theorem trim_triple {rv : Nat} {cmp : String} {l : List F}
    (h : caching = true → ∀ a b l', l = a :: b :: l' → ∀ x ∈ fm.rhs a, ∀ y ∈ fm.rhs b,
      tryCompareAnswer M fm d.maxima.facts y cmp x ≠ some .YES ∧
        tryCompareAnswer M fm d.maxima.facts x cmp y ≠ some .YES) (n : Nat) :
    Triple M caching d (Holds caching rv l) (trim M caching fm rv cmp n)
      (fun _ => Holds caching rv l) := by
  induction n with
  | zero => exact Triple.skip
  | succ n ih =>
      refine .seq (list_triple rv) fun l' => ?_
      match l' with
      | [] => exact Triple.skip.conseq (fun _ h => h.2) (fun _ _ h => h)
      | [_] => exact Triple.skip.conseq (fun _ h => h.2) (fun _ _ h => h)
      | a :: b :: l'' =>
          refine Triple.conseq (P := fun w => (caching = true → a :: b :: l'' = l) ∧
            Holds caching rv l w) ?_ ?_ (fun _ _ h => h)
          · refine .of_fact fun hsame => .seq (assertSome_triple _) fun x => .of_fact fun hx =>
              .seq (assertSome_triple _) fun y => .of_fact fun hy =>
                .seq ((tryCompare_triple _ _ _).framed rv l) fun r => .of_fact fun hr =>
                  .ite (fun hyes => ?_) fun _ => .seq ((tryCompare_triple _ _ _).framed rv l)
                    fun r' => .of_fact fun hr' => .ite (fun hyes => ?_) fun _ => Triple.skip
            · have hno : caching = true → b :: l'' = l := fun hc =>
                absurd (hyes ▸ hr) (h hc a b l'' (hsame hc).symm x hx y hy).1
              exact .seq (setList_triple.conseq (fun _ hl => ⟨hl, hno⟩) (fun _ _ h => h)) fun _ => ih
            · have hno : caching = true → a :: l'' = l := fun hc =>
                absurd (hyes ▸ hr') (h hc a b l'' (hsame hc).symm x hx y hy).2
              exact .seq (setList_triple.conseq (fun _ hl => ⟨hl, hno⟩) (fun _ _ h => h)) fun _ => ih
          · rintro w ⟨hl', hl⟩
            exact ⟨fun hc => hl'.trans (hl.list_eq hc), hl⟩

theorem Triple.of_lists {α : Type} {m : Wrap F α} {rv : Nat} {l : List F}
    {Q : α → MaximaWrapper F → Prop} (h : Triple M caching d (Holds caching rv l) m Q) :
    Triple M caching d (fun w => w.lists[rv]? = some l) m Q :=
  h.conseq (fun _ hl _ => hl) (fun _ _ h => h)

theorem retrySolve_triple {eqs : List F} {var : String} {cmp : Option String}
    (h : caching = false ∨ Keeps M fm d.maxima.facts eqs var cmp) :
    Triple M caching d (fun _ => True) (retrySolve M caching fm eqs var cmp)
      (fun _ _ => True) := by
  have hkeeps : caching = true → Keeps M fm d.maxima.facts eqs var cmp := by
    intro hc
    rcases h with h | h
    · rw [h] at hc
      cases hc
    · exact h
  refine .seq (query_triple _) fun rv => (Triple.of_lists ?_)
  refine .seq (solveParts_triple fun hc hl => (hkeeps hc).parts hl) fun _ =>
    .seq (list_triple rv) fun l => ?_
  match cmp with
  | none => exact Triple.skip.conseq (fun _ _ => trivial) (fun _ _ h => h)
  | some cmp =>
      refine .seq ?_ fun _ => Triple.skip
      exact (trim_triple (fun hc => (hkeeps hc).untrimmed cmp rfl) _).conseq (fun _ h => h.2)
        (fun _ _ _ => trivial)

/-! ## Operations -/

/-- A step that leaves the cache as Maxima would fill it. -/
def Op.Keeps (M : Maxima F) (fm : Formulas F) (caching : Bool) (s : Finset String) : Op F → Prop
  | .retrySolve eqs var cmp => caching = false ∨ PbMaximaWrapper.Keeps M fm s eqs var cmp
  | _ => True

/-- The two processes after the same operations. -/
structure Related (M : Maxima F) (caching : Bool) (d : Direct) (w : MaximaWrapper F) : Prop where
  inv : Inv M caching d w
  depth : w.stackDepth = d.stackDepth

theorem Related.of_triple {α : Type} {m : Wrap F α} {Q : α → MaximaWrapper F → Prop}
    (h : Triple M caching d (fun _ => True) m Q) (hr : Related M caching d w) :
    Related M caching d (m w).2 ∧ Goes M caching d w (m w).2 := by
  obtain ⟨hinv, hgoes, -⟩ := h w hr.inv trivial
  exact ⟨⟨hinv, hgoes.depth.trans hr.depth⟩, hgoes⟩

theorem Related.delay (h : Related M caching d w) (f : String) :
    Related M caching ⟨d.maxima.exec (.fact f), d.stackDepth⟩ ((delay f : Wrap F Unit) w).2 := by
  refine ⟨⟨h.inv.names, ?_, h.inv.cached, h.inv.supcontext, h.inv.killcontext, h.inv.uncached⟩,
    h.depth⟩
  show d.maxima.assume f = w.maxima.addAll (w.pendingAssume.insert f ()).keys.toFinset
  have hkeys : (w.pendingAssume.insert f ()).keys.toFinset =
      insert f w.pendingAssume.keys.toFinset := by
    ext g
    simp [PbOrderedMap.OrderedMap.insert, PbOrderedMap.OrderedMap.mem_update]
  rw [hkeys, Contexts.addAll_insert, ← h.inv.sent]

/-- **ONE OPERATION**: what it is answered is right, and if it ends, the two processes still go
    together. -/
theorem Related.step {op : Op F} (h : Related M caching d w)
    (hop : op.Keeps M fm caching d.maxima.facts) :
    Answered M d w (runOp M caching fm op w).2 ∧
      ∀ u, (runOp M caching fm op w).1 = some u →
        Related M caching (d.send fm op) (runOp M caching fm op w).2 := by
  match op with
  | .pushContext =>
      have hinv : Inv M caching d { w with stackDepth := w.stackDepth + 1 } :=
        ⟨h.inv.names, h.inv.sent, h.inv.cached, h.inv.supcontext, h.inv.killcontext,
          h.inv.uncached⟩
      obtain ⟨hpush, hanswers⟩ := hinv.runCommand_supcontext fm
      rw [← h.depth] at hpush hanswers
      refine ⟨.of_eq hanswers, fun _ _ => ⟨hpush, ?_⟩⟩
      show (runCommand M caching _ _).2.stackDepth = d.stackDepth + 1
      rw [runCommand_stackDepth, ← h.depth]
  | .popContext =>
      by_cases hdepth : 0 < w.stackDepth
      · obtain ⟨hpop, hanswers⟩ := h.inv.killed (h.depth ▸ hdepth) fm
        rw [← h.depth] at hpop hanswers
        have hrun : runOp M caching fm .popContext w = (some (), clearCache
            (runCommand M caching (.killcontext w.stackDepth)
              { w with pendingAssume := ∅, stackDepth := w.stackDepth - 1 }).2) := by
          show (if 0 < w.stackDepth then _ else _ : Wrap F Unit) w = _
          rw [if_pos hdepth]
          rfl
        rw [hrun]
        refine ⟨.of_eq hanswers, fun _ _ => ⟨hpop, ?_⟩⟩
        show (runCommand M caching _ _).2.stackDepth = d.stackDepth - 1
        rw [runCommand_stackDepth, h.depth]
      · have hrun : runOp M caching fm .popContext w = (none, w) := by
          show (if 0 < w.stackDepth then _ else _ : Wrap F Unit) w = _
          rw [if_neg hdepth]
          rfl
        rw [hrun]
        exact ⟨.of_eq rfl, nofun⟩
  | .assume fact => exact ⟨.of_eq rfl, fun _ _ => h.delay _⟩
  | .declareInteger var => exact ⟨.of_eq rfl, fun _ _ => h.delay _⟩
  | .query cmd =>
      have hquery : Triple M caching d (fun _ => True)
          (runOp M caching fm (.query cmd)) (fun _ _ => True) :=
        .seq (query_triple cmd) fun _ => Triple.skip.conseq (fun _ _ => trivial) (fun _ _ h => h)
      obtain ⟨hrelated, hgoes⟩ := h.of_triple hquery
      exact ⟨hgoes.answered, fun _ _ => hrelated⟩
  | .retrySolve eqs var cmp =>
      have hsolve : Triple M caching d (fun _ => True)
          (runOp M caching fm (.retrySolve eqs var cmp)) (fun _ _ => True) :=
        .seq (retrySolve_triple hop) fun _ => Triple.skip
      obtain ⟨hrelated, hgoes⟩ := h.of_triple hsolve
      exact ⟨hgoes.answered, fun _ _ => hrelated⟩

/-! ## Runs -/

theorem related_start : Related M caching ⟨[(0, ∅)], 0⟩ (start M caching) := by
  have hempty : Inv M caching ⟨[(0, ∅)], 0⟩
      (⟨[(0, ∅)], [], 0, ∅, [], []⟩ : MaximaWrapper F) := by
    refine ⟨rfl, ?_, nofun, nofun, nofun, fun _ => rfl⟩
    exact (Contexts.addAll_empty _).symm
  exact ⟨(hempty.runCommand_query _).1, runCommand_stackDepth _ _⟩

/-- Every step of a run leaves the cache as Maxima would fill it. -/
def RunKeeps (M : Maxima F) (fm : Formulas F) (caching : Bool) : Direct → List (Op F) → Prop
  | _, [] => True
  | d, op :: ops => op.Keeps M fm caching d.maxima.facts ∧ RunKeeps M fm caching (d.send fm op) ops

/-- **A RUN** keeps the two processes together. -/
theorem Related.steps {ops : List (Op F)} (h : Related M caching d w)
    (hops : RunKeeps M fm caching d ops) (hrun : runAll M caching fm ops w = some w') :
    Related M caching (ops.foldl (Direct.send fm) d) w' := by
  induction ops generalizing d w with
  | nil =>
      obtain rfl := Option.some.inj hrun
      exact h
  | cons op ops ih =>
      obtain ⟨-, hrelated⟩ := h.step hops.1
      rw [runAll] at hrun
      generalize runOp M caching fm op w = r at hrelated hrun
      match r with
      | (some u, w'') => exact ih (hrelated u rfl) hops.2 hrun
      | (none, _) => cases hrun

theorem RunKeeps.append {ops ops' : List (Op F)} (h : RunKeeps M fm caching d (ops ++ ops')) :
    RunKeeps M fm caching d ops ∧ RunKeeps M fm caching (ops.foldl (Direct.send fm) d) ops' := by
  induction ops generalizing d with
  | nil => exact ⟨trivial, h⟩
  | cons op ops ih =>
      obtain ⟨hops, hops'⟩ := ih h.2
      exact ⟨⟨h.1, hops⟩, hops'⟩

/-- **DELAYING AND CACHING IS TRANSPARENT**: in a run whose solvers change no cached list, what a
    command is answered at any time is what Maxima answers with every assumption sent when it was
    made. -/
theorem answers_right {ops : List (Op F)} {op : Op F}
    (hops : RunKeeps M fm caching ⟨[(0, ∅)], 0⟩ (ops ++ [op]))
    (hrun : runAll M caching fm ops (start M caching) = some w) :
    ∃ new, (runOp M caching fm op w).2.answers = w.answers ++ new ∧
      ∀ e ∈ new, e.2 = M.answer (Direct.after fm ops).maxima.facts e.1 := by
  obtain ⟨hops, hop, -⟩ := hops.append
  exact ((related_start.steps hops hrun).step hop).1

end Wrapping

/-! ## A quadratic equation -/

/-- Formulas that are texts, with two equations that have a right-hand side. -/
def texts : Formulas String where
  toString := id
  printAsAssumption := id
  contains _ _ := true
  rhs s := if s = "x=2" then some "2" else if s = "x=-2" then some "-2" else none

/-- Maxima, as far as it is asked here. -/
def squareRoots : Maxima String where
  answer s q :=
    if q = "solve([x*x=4], x)" then
      if "assume(x>0)" ∈ s then ["x=2"] else ["x=-2", "x=2"]
    else if q = "is(-2<2)" ∨ q = "is(2>-2)" then ["1"]
    else ["0"]
  reply _ _ := []

/-- A solver that returns one result in a context, the cache being filled before and after. -/
theorem answers_right_squareRoots :
    ∃ w, runAll squareRoots true texts [.query "solve([x*x=4], x)", .pushContext, .assume "x>0",
        .retrySolve ["x*x=4"] "x" (some "<")] (start squareRoots true) = some w ∧
      ∃ new, (runOp squareRoots true texts .popContext w).2.answers = w.answers ++ new ∧
        ∀ e ∈ new, e.2 = squareRoots.answer (Direct.after texts [.query "solve([x*x=4], x)",
          .pushContext, .assume "x>0", .retrySolve ["x*x=4"] "x" (some "<")]).maxima.facts e.1 := by
  have hsome : (runAll squareRoots true texts [.query "solve([x*x=4], x)", .pushContext,
      .assume "x>0", .retrySolve ["x*x=4"] "x" (some "<")] (start squareRoots true)).isSome =
        true := by
    decide +kernel
  obtain ⟨w, hw⟩ := Option.isSome_iff_exists.mp hsome
  refine ⟨w, hw, answers_right ⟨trivial, trivial, trivial, .inr ⟨?_, ?_⟩, trivial, trivial⟩ hw⟩
  · intro hnone
    exact absurd hnone (by decide +kernel)
  · intro c _ a b l hl
    have hone : squareRoots.answer (Direct.after texts [.query "solve([x*x=4], x)",
        .pushContext, .assume "x>0"]).maxima.facts
          (solveText texts ["x*x=4"] "x") = ["x=2"] := by decide +kernel
    exact nomatch hone.symm.trans hl

/-- After `minSolve` has trimmed the list it was given, the cache answers with one root of two. -/
theorem minSolve_spoils_cache :
    ∃ w, runAll squareRoots true texts [.retrySolve ["x*x=4"] "x" (some "<")]
        (start squareRoots true) = some w ∧
      ¬ ∃ new, (runOp squareRoots true texts (.query "solve([x*x=4], x)") w).2.answers =
          w.answers ++ new ∧
        ∀ e ∈ new, e.2 = squareRoots.answer (Direct.after texts
          [.retrySolve ["x*x=4"] "x" (some "<")]).maxima.facts e.1 := by
  have hrun : (runAll squareRoots true texts [.retrySolve ["x*x=4"] "x" (some "<")]
      (start squareRoots true)).map (fun w => (w.answers,
        (runOp squareRoots true texts (.query "solve([x*x=4], x)") w).2.answers)) =
      some ([("solve([x*x=4], x)", ["x=-2", "x=2"]), ("is(2<-2)", ["0"]), ("is(-2<2)", ["1"])],
        [("solve([x*x=4], x)", ["x=-2", "x=2"]), ("is(2<-2)", ["0"]), ("is(-2<2)", ["1"]),
          ("solve([x*x=4], x)", ["x=-2"])]) := by
    decide +kernel
  have hanswer : squareRoots.answer (Direct.after texts
      [.retrySolve ["x*x=4"] "x" (some "<")]).maxima.facts "solve([x*x=4], x)" =
        ["x=-2", "x=2"] := by
    decide +kernel
  obtain ⟨w, hw, hanswers⟩ := Option.map_eq_some_iff.mp hrun
  obtain ⟨hbefore, hafter⟩ := Prod.mk.inj hanswers
  refine ⟨w, hw, ?_⟩
  rintro ⟨new, hnew, hright⟩
  rw [hbefore, hafter] at hnew
  have hnew' : new = [("solve([x*x=4], x)", ["x=-2"])] := by simpa using hnew.symm
  have hwrong := hright ("solve([x*x=4], x)", ["x=-2"]) (hnew' ▸ List.mem_singleton_self _)
  rw [hanswer] at hwrong
  cases hwrong

end PbMaximaWrapper
