import PetaBricks.DistributedGCTokenProofs

/-! # Distributed collection — what a collector holds

    `Collects` lists what a move does to the collector of its end and to its scan.  A
    collector holds what it has taken until its cycle ends, an answer is what was picked,
    and what is dropped is what both sides picked (`Scans`). -/

namespace PbDistributedGC

open State

variable {s t : State} {e : End}

/-- What a move does to the collector of its end, and to the work of its scan. -/
inductive Collects (s t : State) (e : End) : Prop where
  | same (h : t.collector e = s.collector e)
      (hscan : ∀ w, w.scanning = true → w ∈ (t.object e).work → w ∈ (s.object e).work)
      (hkeep : ∀ r, Work.scan r ∈ (s.object e).work → Work.scan r ∈ (t.object e).work)
  | swap (hw : Work.swap ∈ (s.object e).work)
      (h : t.collector e = { s.collector e with
        gen := s.currentGen e.host + 1, objects := s.table e.host, swapped := true
        collected := s.table e.host })
      (hscan : ∀ w, w.scanning = true → w ∈ (t.object e).work → w ∈ (s.object e).work)
  | beginScan (m : Msg) (hw : Work.message m ∈ (s.object e).work)
      (he : e.pair.collector = true) (hbody : m.body = .notify .DO_SCAN)
      (h : t.collector e = { s.collector e with
        objects := [], tmp := (s.collector e).objects, asked := true })
      (hscan : ∀ w, w.scanning = true → w ∈ (t.object e).work →
        w ∈ (s.object e).work ∨ w = .scan [])
      (hin : Work.scan [] ∈ (t.object e).work)
  | mark (r : List EncodedPtr) (k : Pair) (rest : List Pair)
      (hw : Work.scan r ∈ (s.object e).work) (htmp : (s.collector e).tmp = k :: rest)
      (hdel : (s.object ⟨e.host, k⟩).maybeDeletable (s.collector e).gen = true)
      (h : t.collector e = { s.collector e with
        tmp := rest
        objectsMaybeDead := (s.collector e).objectsMaybeDead ++ [k]
        marked := (s.collector e).marked ++ [k] })
      (hwork : (t.object e).work = (s.object e).work.erase (.scan r) ++
        [.scan (r ++ [(s.object ⟨e.host, k⟩).remoteObj])])
  | keep (r : List EncodedPtr) (k : Pair) (rest : List Pair)
      (hw : Work.scan r ∈ (s.object e).work) (htmp : (s.collector e).tmp = k :: rest)
      (h : t.collector e = { s.collector e with
        tmp := rest, objects := (s.collector e).objects ++ [k] })
      (hwork : (t.object e).work = (s.object e).work)
  | scanned (r : List EncodedPtr) (hw : Work.scan r ∈ (s.object e).work)
      (htmp : (s.collector e).tmp = []) (h : t.collector e = s.collector e)
      (hwork : (t.object e).work = (s.object e).work.erase (.scan r) ++
        [if r = [] then .abort else .respond r])
  | abort (hw : Work.abort ∈ (s.object e).work)
      (h : t.collector e = { s.collector e with
        objects := [], objectsMaybeDead := [], complete := true })
      (hscan : ∀ w, w.scanning = true → w ∈ (t.object e).work → w ∈ (s.object e).work)
  | aborted (m : Msg) (hw : Work.message m ∈ (s.object e).work)
      (hcan : s.canDo e (.message m) = true) (hc : (s.object e).created = true)
      (he : e.pair.collector = true) (hbody : m.body = .notify .ABORT_GC)
      (h : t.collector e = { s.collector e with
        objects := [], objectsMaybeDead := [], complete := true, heard := true })
      (hscan : ∀ w, w.scanning = true → w ∈ (t.object e).work → w ∈ (s.object e).work)
  | onRecv (m : Msg) (ptrs : List EncodedPtr) (hw : Work.message m ∈ (s.object e).work)
      (hcan : s.canDo e (.message m) = true) (hc : (s.object e).created = true)
      (he : e.pair.collector = true) (hbody : m.body = .data ptrs)
      (h : t.collector e = { s.collector e with
        objects := [], objectsMaybeDead := [], complete := true, heard := true
        dropped := (s.collector e).dropped ++
          (s.collector e).objectsMaybeDead.filter (fun k => some k ∈ ptrs) })
      (hscan : ∀ w, w.scanning = true → w ∈ (t.object e).work → w ∈ (s.object e).work)

/-- An end that is not made does not scan. -/
theorem Made.not_scan (hm : Made s) (hu : s.made e = false) (r : List EncodedPtr) :
    Work.scan r ∉ (s.object e).work := by
  rcases hm.unmade e hu with h | h <;> rw [h] <;>
    simp [RemoteObject.blank, RemoteObject.requested]

theorem Move.collects (h : Move s e t) (hm : Made s) : Collects s t e := by
  cases h with
  | createRemoteObject hnew =>
      have hu : s.made e = false := by
        by_contra hmade
        exact hnew (hm.paired e (by simpa using hmade))
      refine .same (by simp [State.createRemoteObject]) (fun w hs hw => ?_)
        (fun r hr => absurd hr (hm.not_scan hu r))
      have : w = .addObject false := by
        simpa [State.createRemoteObject, sendMsg_object] using hw
      subst this
      cases hs
  | construct hw =>
      refine .same (by rw [construct_collector]) (fun w hs hw' => ?_)
        (fun r hr => absurd hr (hm.not_scan (hm.unmade_of_construct hw) r))
      rw [construct_object] at hw'
      split at hw'
      · rcases List.mem_pair.mp hw' with rfl | rfl <;> cases hs
      · rw [List.mem_singleton.mp hw'] at hs
        cases hs
  | openWith m hw hc hsrc =>
      have hwork : ((s.openWith e m).object e).work =
          if e.pair.collector then .swap :: (s.object e).work else (s.object e).work := by
        simp [State.openWith]
      refine .same rfl (fun w hs hw' => ?_) (fun r hr => ?_)
      · rw [hwork] at hw'
        split at hw'
        · rcases List.mem_cons.mp hw' with rfl | hw'
          · cases hs
          · exact hw'
        · exact hw'
      · rw [hwork]
        split
        · exact List.mem_cons_of_mem _ hr
        · exact hr
  | read m rest hch hdst =>
      refine .same rfl (fun w hs hw' => ?_) (fun r hr => by simp [hr])
      have hw' : w ∈ (s.object e).work ∨ w = .message m := by simpa using hw'
      rcases hw' with hw' | rfl
      · exact hw'
      · cases hs
  | readCreate m rest hch hdst hbody hsrc =>
      refine .same rfl (fun w hs hw' => ?_) (fun r hr => by simp [State.addWork, hr])
      have hw' : w ∈ (s.object e).work ∨ w = .construct := by simpa [State.addWork] using hw'
      rcases hw' with hw' | rfl
      · exact hw'
      · cases hs
  | scan r hw =>
      cases htmp : (s.collector e).tmp with
      | nil =>
          refine .scanned r hw htmp ?_ ?_
          · rw [State.scanNext]; simp [htmp, addWork, endWork]
          · rw [State.scanNext]; simp [htmp, addWork, endWork]
      | cons k rest =>
          by_cases hdel : (s.object ⟨e.host, k⟩).maybeDeletable (s.collector e).gen = true
          · refine .mark r k rest hw htmp hdel ?_ ?_
            · rw [State.scanNext]; simp [htmp, hdel]
            · rw [State.scanNext]; simp [htmp, hdel, addWork, endWork]
          · refine .keep r k rest hw htmp ?_ ?_
            · rw [State.scanNext]; simp [htmp, hdel]
            · rw [State.scanNext]; simp [htmp, hdel]
  | swap hw =>
      refine .swap hw ?_ (fun w hs hw' => ?_)
      · simp [State.swapObjects, State.addWork, State.endWork]
      · have hw' : w ∈ (s.object e).work.erase .swap ∨ w = .flush := by
          simpa [State.swapObjects, State.addWork, State.endWork] using hw'
        rcases hw' with hw' | rfl
        · exact List.mem_of_mem_erase hw'
        · cases hs
  | beginScan m hw hcan hc he hbody =>
      have hwork : (((s.endWork e (.message m)).beginScan e).object e).work =
          (s.object e).work.erase (.message m) ++ [.scan []] := by
        simp [State.beginScan, State.addWork, State.endWork]
      refine .beginScan m hw he hbody ?_ (fun w _ hw' => ?_) ?_
      · simp [State.beginScan, State.addWork, State.endWork]
      · rw [hwork] at hw'
        rcases List.mem_append.mp hw' with hw' | hw'
        · exact Or.inl (List.mem_of_mem_erase hw')
        · exact Or.inr (List.mem_singleton.mp hw')
      · rw [hwork]
        exact List.mem_append_right _ List.mem_cons_self
  | abort hw hb =>
      refine .abort hw ?_ (fun w _ hw' => ?_)
      · simp [State.finishup, State.remoteNotify, State.endWork]
      · exact List.mem_of_mem_erase
          (by simpa [State.finishup, State.remoteNotify, State.endWork, sendMsg_object] using hw')
  | aborted m hw hcan hc he hbody =>
      refine .aborted m hw hcan hc he hbody ?_ (fun w _ hw' => ?_)
      · simp [State.onNotify, State.finishup, State.endWork]
      · exact List.mem_of_mem_erase
          (by simpa [State.onNotify, State.finishup, State.endWork] using hw')
  | onRecv m ptrs hw hcan hc he hbody =>
      refine .onRecv m ptrs hw hcan hc he hbody ?_ (fun w _ hw' => ?_)
      · simp [State.onRecv, State.finishup, State.endWork]
      · exact List.mem_of_mem_erase
          (by simpa [State.onRecv, State.finishup, State.endWork] using hw')
  | _ =>
      refine .same ?_ (fun w hs hw' => ?_) (fun r hr => ?_)
      · simp [State.sendData, State.remoteNotify, State.endWork, State.addObject]
      · simp [State.sendData, State.remoteNotify, State.endWork, State.addObject,
          sendMsg_object] at hw'
        first | exact hw' | exact List.mem_of_mem_erase hw'
      · simpa [State.sendData, State.remoteNotify, State.endWork, State.addObject,
          sendMsg_object] using hr

/-! ## Scans -/

/-- What a message says of the objects its sender picked. -/
def Collector.Answers (g : Collector) : Body → Prop
  | .data ptrs => ptrs = g.marked.map some
  | .notify .ABORT_GC => g.marked = []
  | _ => True

/-- What the work of a scan says of the objects picked so far. -/
def Collector.Picks (g : Collector) : Work → Prop
  | .scan r => r = g.marked.map some
  | .respond r => r = g.marked.map some ∧ g.tmp = []
  | .abort => g.marked = [] ∧ g.tmp = []
  | _ => True

/-- The fields of a collector, in the order they are filled. -/
structure Collector.Ok (g : Collector) : Prop where
  unswapped : g.swapped = false → g.held = [] ∧ g.dropped = [] ∧ g.collected = []
  unasked : g.asked = false → g.tmp = [] ∧ g.marked = []
  unheard : g.heard = false → g.dropped = [] ∧ g.objectsMaybeDead = g.marked
  heard : g.heard = true → g.complete = true
  complete : g.complete = true → g.held = [] ∧ g.swapped = true
  incomplete : g.complete = false → g.collected.Perm g.held

/-- A message from an end to its peer, on its way or read. -/
def State.Between (s : State) (x : End) (m : Msg) : Prop :=
  m ∈ s.channel (!x.host) ∧ m.sender = x.pair ∨ Work.message m ∈ (s.object x.peer).work

/-- What collectors hold, and what they say of it. -/
structure Scans (s : State) : Prop where
  ok : ∀ x, (s.collector x).Ok
  scanning : ∀ x, (s.collector x).tmp ≠ [] → ∃ r, Work.scan r ∈ (s.object x).work
  picks : ∀ x, ∀ w ∈ (s.object x).work, (s.collector x).Picks w
  answers : ∀ x, x.pair.collector = true → ∀ m, s.Between x m →
    (s.collector x).Answers m.body
  dropped : ∀ x, (s.collector x).heard = true → (s.collector x).dropped =
    (s.collector x).marked.filter (fun k => k ∈ (s.collector x.peer).marked)

/-! ### Tokens that are there -/

theorem State.tokens_pos_scan {w : Work} (hw : w ∈ (s.object e).work)
    (hs : w.token = some .scan) : 0 < s.tokens e .scan :=
  List.countP_pos_iff.mpr ⟨w, hw, by rw [hs]; rfl⟩

theorem State.tokens_pos_here {m : Msg} {k : Kind} (hw : Work.message m ∈ (s.object e).work)
    (hk : m.body.kind = some k) : 0 < s.tokens e (.here k) := by
  have hpos : 0 < (s.object e).work.countP (fun w => w.token = some (.here k)) :=
    List.countP_pos_iff.mpr ⟨_, hw, by simp [Work.token, hk]⟩
  rw [State.tokens, State.coming]
  omega

theorem Work.token_of_scanning {w : Work} (hw : w.scanning = true) : w.token = some .scan := by
  cases w <;> first | rfl | cases hw

/-- Who scans has been asked, and its peer has not heard of it. -/
theorem Tokens.of_scan (ht : Tokens s) {w : Work} (hw : w ∈ (s.object e).work)
    (hs : w.token = some .scan) (he : e.pair.collector = true) :
    (s.collector e).asked = true ∧ (s.collector e).swapped = true ∧
      (s.collector e.peer).heard = false ∧ s.tokens e (.there .answer) = 0 := by
  have hpos := State.tokens_pos_scan hw hs
  have h1 := ht.first e he
  have h2 := ht.second e he
  have hle := Bool.toNat_le (s.collector e).asked
  have hasked : (s.collector e).asked = true := by
    cases ha : (s.collector e).asked with
    | true => rfl
    | false => rw [ha, Bool.toNat_false] at h2; omega
  refine ⟨hasked, ?_, ?_, by omega⟩
  · cases hsw : (s.collector e).swapped with
    | true => rfl
    | false => rw [hsw, hasked, Bool.toNat_true, Bool.toNat_false] at h1; omega
  · cases hh : (s.collector e.peer).heard with
    | false => rfl
    | true => rw [hh, Bool.toNat_true] at h2; omega

/-- Who is asked to scan has taken the table and has not scanned. -/
theorem Tokens.of_ask (ht : Tokens s) {m : Msg} (hw : Work.message m ∈ (s.object e).work)
    (hb : m.body = .notify .DO_SCAN) (he : e.pair.collector = true) :
    (s.collector e).asked = false ∧ (s.collector e).swapped = true ∧ s.tokens e .scan = 0 := by
  have hpos := State.tokens_pos_here (k := .scan) hw (by rw [hb]; rfl)
  have h1 := ht.first e he
  have h2 := ht.second e he
  have hasked : (s.collector e).asked = false := by
    cases ha : (s.collector e).asked with
    | false => rfl
    | true =>
        have hle := Bool.toNat_le (s.collector e).swapped
        rw [ha, Bool.toNat_true] at h1
        omega
  rw [hasked, Bool.toNat_false] at h1 h2
  refine ⟨hasked, ?_, by omega⟩
  cases hsw : (s.collector e).swapped with
  | true => rfl
  | false => rw [hsw, Bool.toNat_false] at h1; omega

/-- Who is answered has not heard before. -/
theorem Tokens.of_answer (ht : Tokens s) {m : Msg} (hw : Work.message m ∈ (s.object e).work)
    (hb : m.body.kind = some .answer) (he : e.pair.collector = true) :
    (s.collector e).heard = false := by
  have hpos := State.tokens_pos_here hw hb
  have h2 := ht.second e.peer he
  rw [tokens_peer_there, End.peer_peer] at h2
  cases hh : (s.collector e).heard with
  | false => rfl
  | true =>
      have hle := Bool.toNat_le (s.collector e.peer).asked
      rw [hh, Bool.toNat_true] at h2
      omega

theorem Collector.held_eq_nil {g : Collector} :
    g.held = [] ↔ g.tmp = [] ∧ g.objects = [] ∧ g.objectsMaybeDead = [] := by
  simp [Collector.held]

theorem Swaps.swapped_of_canDo (hs : Swaps s) (hc : (s.object e).created = true)
    (he : e.pair.collector = true) {m : Msg} (hcan : s.canDo e (.message m) = true) :
    (s.collector e).swapped = true := by
  refine hs.swapped hc he (fun hswap => ?_)
  cases (State.canDo_message hcan hswap).1

/-- A message is handled when no scan is under way. -/
theorem Scans.tmp_of_canDo (hsc : Scans s) {m : Msg} (hcan : s.canDo e (.message m) = true) :
    (s.collector e).tmp = [] := by
  by_contra htmp
  obtain ⟨r, hr⟩ := hsc.scanning e htmp
  cases (State.canDo_message hcan hr).1

/-- A collector that is done. -/
theorem Collector.Ok.of_complete {g : Collector} (hsw : g.swapped = true)
    (hcomp : g.complete = true) (hheld : g.held = [])
    (hasked : g.asked = false → g.tmp = [] ∧ g.marked = [])
    (hunheard : g.heard = false → g.dropped = [] ∧ g.objectsMaybeDead = g.marked) : g.Ok where
  unswapped := fun h => by rw [hsw] at h; cases h
  unasked := hasked
  unheard := hunheard
  heard := fun _ => hcomp
  complete := fun _ => ⟨hheld, hsw⟩
  incomplete := fun h => by rw [hcomp] at h; cases h

/-- A collector that is not done and has not heard. -/
theorem Collector.Ok.of_incomplete {g : Collector} (hsw : g.swapped = true)
    (hcomp : g.complete = false) (hheard : g.heard = false)
    (hasked : g.asked = false → g.tmp = [] ∧ g.marked = [])
    (hunheard : g.dropped = [] ∧ g.objectsMaybeDead = g.marked)
    (hperm : g.collected.Perm g.held) : g.Ok where
  unswapped := fun h => by rw [hsw] at h; cases h
  unasked := hasked
  unheard := fun _ => hunheard
  heard := fun h => by rw [hheard] at h; cases h
  complete := fun h => by rw [hcomp] at h; cases h
  incomplete := fun _ => hperm

theorem Collector.Ok.heard_eq {g : Collector} (hok : g.Ok) (hcomp : g.complete = false) :
    g.heard = false := by
  by_contra hheard
  rw [hok.heard (by simpa using hheard)] at hcomp
  cases hcomp

/-- Who looks at an object is not done. -/
theorem Collector.Ok.incomplete_of_tmp {g : Collector} (hok : g.Ok) {k : Pair}
    {rest : List Pair} (htmp : g.tmp = k :: rest) : g.complete = false := by
  by_contra hcomp
  have hnil := (Collector.held_eq_nil.mp (hok.complete (by simpa using hcomp)).1).1
  rw [htmp] at hnil
  cases hnil

theorem Scans.ok_move (hsc : Scans s) (hm : Made s) (hs : Swaps s) (ht : Tokens s)
    (h : Move s e t) : (t.collector e).Ok := by
  have hok := hsc.ok e
  rcases h.collects hm with ⟨heq, -, -⟩ | ⟨hw, heq, -⟩ | ⟨m, hw, he, hbody, heq, -, -⟩ |
    ⟨r, k, rest, hw, htmp, -, heq, -⟩ | ⟨r, k, rest, hw, htmp, heq, -⟩ |
    ⟨r, hw, htmp, heq, -⟩ | ⟨hw, heq, -⟩ | ⟨m, hw, hcan, hc, he, hbody, heq, -⟩ |
    ⟨m, ptrs, hw, hcan, hc, he, hbody, heq, -⟩
  · rw [heq]
    exact hok
  · -- the table is taken
    have hsw : (s.collector e).swapped = false := hs.unswapped hw
    obtain ⟨hheld, hdropped, -⟩ := hok.unswapped hsw
    obtain ⟨htmp, -, hdead⟩ := Collector.held_eq_nil.mp hheld
    have hcomp : (s.collector e).complete = false := by
      by_contra hcomp
      rw [(hok.complete (by simpa using hcomp)).2] at hsw
      cases hsw
    rw [heq]
    refine .of_incomplete rfl hcomp (hok.heard_eq hcomp) hok.unasked
      (hok.unheard (hok.heard_eq hcomp)) ?_
    simp [Collector.held, htmp, hdead]
  · -- the scan begins
    obtain ⟨hasked, hsw, -⟩ := ht.of_ask hw hbody he
    obtain ⟨htmp, -⟩ := hok.unasked hasked
    rw [heq]
    cases hcomp : (s.collector e).complete with
    | true =>
        obtain ⟨-, hobj, hdead⟩ := Collector.held_eq_nil.mp (hok.complete hcomp).1
        exact .of_complete hsw hcomp (by simp [Collector.held, hobj, hdead])
          (fun h => by cases h) hok.unheard
    | false =>
        refine .of_incomplete hsw hcomp (hok.heard_eq hcomp) (fun h => by cases h)
          (hok.unheard (hok.heard_eq hcomp)) ?_
        simpa [Collector.held, htmp] using hok.incomplete hcomp
  · -- an object is picked
    obtain ⟨hasked, hsw, -, -⟩ := ht.of_scan hw rfl (hm.work e _ hw).2
    have hcomp := hok.incomplete_of_tmp htmp
    obtain ⟨hdropped, hdead⟩ := hok.unheard (hok.heard_eq hcomp)
    rw [heq]
    refine .of_incomplete hsw hcomp (hok.heard_eq hcomp)
      (fun h => by rw [hasked] at h; cases h) ⟨hdropped, by simp only [hdead]⟩ ?_
    refine (hok.incomplete hcomp).trans (List.perm_iff_count.mpr (fun a => ?_))
    simp only [Collector.held, htmp, List.count_append, List.count_cons, List.count_nil]
    omega
  · -- an object is kept
    obtain ⟨hasked, hsw, -, -⟩ := ht.of_scan hw rfl (hm.work e _ hw).2
    have hcomp := hok.incomplete_of_tmp htmp
    rw [heq]
    refine .of_incomplete hsw hcomp (hok.heard_eq hcomp)
      (fun h => by rw [hasked] at h; cases h) (hok.unheard (hok.heard_eq hcomp)) ?_
    refine (hok.incomplete hcomp).trans (List.perm_iff_count.mpr (fun a => ?_))
    simp only [Collector.held, htmp, List.count_append, List.count_cons, List.count_nil]
    omega
  · rw [heq]
    exact hok
  · -- nothing was picked
    obtain ⟨hasked, hsw, -, -⟩ := ht.of_scan hw rfl (hm.work e _ hw).2
    obtain ⟨hmarked, htmp⟩ := hsc.picks e _ hw
    rw [heq]
    exact .of_complete hsw rfl (by simp [Collector.held, htmp])
      (fun h => by rw [hasked] at h; cases h) (fun h => ⟨(hok.unheard h).1, hmarked.symm⟩)
  · -- the other side picked nothing
    rw [heq]
    exact .of_complete (hs.swapped_of_canDo hc he hcan) rfl
      (by simp [Collector.held, hsc.tmp_of_canDo hcan]) hok.unasked (fun h => by cases h)
  · -- the other side says what it picked
    rw [heq]
    exact .of_complete (hs.swapped_of_canDo hc he hcan) rfl
      (by simp [Collector.held, hsc.tmp_of_canDo hcan]) hok.unasked (fun h => by cases h)

theorem Scans.scanning_move (hsc : Scans s) (hm : Made s) (hs : Swaps s) (h : Move s e t)
    (htmp : (t.collector e).tmp ≠ []) : ∃ r, Work.scan r ∈ (t.object e).work := by
  have hok := hsc.ok e
  rcases h.collects hm with ⟨heq, -, hkeep⟩ | ⟨hw, heq, -⟩ | ⟨m, hw, he, hbody, heq, -, hin⟩ |
    ⟨r, k, rest, hw, -, -, heq, hwork⟩ | ⟨r, k, rest, hw, -, heq, hwork⟩ |
    ⟨r, hw, htmp', heq, -⟩ | ⟨hw, heq, -⟩ | ⟨m, hw, hcan, hc, he, hbody, heq, -⟩ |
    ⟨m, ptrs, hw, hcan, hc, he, hbody, heq, -⟩
  · rw [heq] at htmp
    obtain ⟨r, hr⟩ := hsc.scanning e htmp
    exact ⟨r, hkeep r hr⟩
  · rw [heq] at htmp
    obtain ⟨hheld, -, -⟩ := hok.unswapped (hs.unswapped hw)
    exact absurd (Collector.held_eq_nil.mp hheld).1 htmp
  · exact ⟨[], hin⟩
  · exact ⟨_, hwork ▸ List.mem_append_right _ List.mem_cons_self⟩
  · exact ⟨r, hwork ▸ hw⟩
  · rw [heq] at htmp
    exact absurd htmp' htmp
  · rw [heq] at htmp
    exact absurd (hsc.picks e _ hw).2 htmp
  · rw [heq] at htmp
    exact absurd (hsc.tmp_of_canDo hcan) htmp
  · rw [heq] at htmp
    exact absurd (hsc.tmp_of_canDo hcan) htmp

/-- While a scan is under way there is no other item of its work. -/
theorem Tokens.scan_alone (ht : Tokens s) {v w : Work} (hv : v ∈ (s.object e).work)
    (hs : v.token = some .scan) (he : e.pair.collector = true)
    (hw : w ∈ (s.object e).work.erase v) : w.scanning = false := by
  by_contra hscan
  have hscan : w.token = some .scan := Work.token_of_scanning (by simpa using hscan)
  have h2 := ht.second e he
  have hle := Bool.toNat_le (s.collector e).asked
  have hpos : 0 < ((s.object e).work.erase v).countP (fun w => w.token = some .scan) :=
    List.countP_pos_iff.mpr ⟨w, hw, by rw [hscan]; rfl⟩
  have hcount : s.tokens e .scan = ((s.object e).work.erase v).countP
      (fun w => w.token = some .scan) + 1 := by
    rw [State.tokens, (List.perm_cons_erase hv).countP_eq,
      List.countP_cons_of_pos (by rw [hs]; rfl)]
  omega

theorem Collector.picks_of_not_scanning {g : Collector} {w : Work} (hw : w.scanning = false) :
    g.Picks w := by
  cases w <;> first | exact trivial | cases hw

theorem Collector.Picks.congr {g g' : Collector} {w : Work} (h : g.Picks w)
    (hmarked : g'.marked = g.marked) (htmp : g'.tmp = g.tmp) : g'.Picks w := by
  have heq : g'.Picks w = g.Picks w := by
    cases w <;> simp only [Collector.Picks, hmarked, htmp]
  exact heq ▸ h

/-- Collectors scan. -/
theorem Made.collector_of_scan (hm : Made s) {w : Work} (hw : w ∈ (s.object e).work)
    (hs : w.token = some .scan) : e.pair.collector = true := by
  have hok := hm.work e w hw
  cases w with
  | message m => simp [Work.token] at hs
  | scan r => exact hok.2
  | respond r => exact hok.2
  | abort => exact hok.2
  | _ => cases hs

theorem Made.remoteObj_of_deletable (hm : Made s) {gen : Nat}
    (h : (s.object e).maybeDeletable gen = true) : (s.object e).remoteObj = some e.pair := by
  simp only [RemoteObject.maybeDeletable, Bool.and_eq_true] at h
  exact (hm.created e h.1.1.1).1

theorem Scans.picks_move (hsc : Scans s) (hm : Made s) (ht : Tokens s) (h : Move s e t) :
    ∀ w ∈ (t.object e).work, (t.collector e).Picks w := by
  intro w hw'
  cases hscan : w.scanning with
  | false => exact Collector.picks_of_not_scanning hscan
  | true =>
      have halone : ∀ {v : Work}, v ∈ (s.object e).work → v.token = some .scan →
          w ∉ (s.object e).work.erase v := by
        intro v hv hs hin
        rw [ht.scan_alone hv hs (hm.collector_of_scan hv hs) hin] at hscan
        cases hscan
      rcases h.collects hm with ⟨heq, hold, -⟩ | ⟨hw, heq, hold⟩ |
        ⟨m, hw, he, hbody, heq, hold, -⟩ | ⟨r, k, rest, hw, htmp, hdel, heq, hwork⟩ |
        ⟨r, k, rest, hw, htmp, heq, hwork⟩ | ⟨r, hw, htmp, heq, hwork⟩ | ⟨hw, heq, hold⟩ |
        ⟨m, hw, hcan, hc, he, hbody, heq, hold⟩ | ⟨m, ptrs, hw, hcan, hc, he, hbody, heq, hold⟩
      · rw [heq]
        exact hsc.picks e w (hold w hscan hw')
      · exact (hsc.picks e w (hold w hscan hw')).congr (by rw [heq]) (by rw [heq])
      · obtain ⟨hasked, -, hzero⟩ := ht.of_ask hw hbody he
        rcases hold w hscan hw' with hin | rfl
        · have hpos := State.tokens_pos_scan hin (Work.token_of_scanning hscan)
          omega
        · rw [heq]
          simp [Collector.Picks, ((hsc.ok e).unasked hasked).2]
      · rw [hwork] at hw'
        rcases List.mem_append.mp hw' with hin | hin
        · exact absurd hin (halone hw rfl)
        · have hr := hsc.picks e _ hw
          rw [List.mem_singleton.mp hin, heq, hm.remoteObj_of_deletable hdel]
          simp only [Collector.Picks] at hr ⊢
          simp [hr]
      · rw [hwork] at hw'
        by_cases hwr : w = .scan r
        · subst hwr
          have hr := hsc.picks e _ hw
          rw [heq]
          exact hr
        · exact absurd ((List.mem_erase_of_ne hwr).mpr hw') (halone hw rfl)
      · rw [hwork] at hw'
        rcases List.mem_append.mp hw' with hin | hin
        · exact absurd hin (halone hw rfl)
        · have hr : r = (s.collector e).marked.map some := hsc.picks e _ hw
          rw [List.mem_singleton.mp hin, heq]
          by_cases hnil : r = []
          · rw [if_pos hnil]
            exact ⟨by simpa [hnil] using hr.symm, htmp⟩
          · rw [if_neg hnil]
            exact ⟨hr, htmp⟩
      · exact (hsc.picks e w (hold w hscan hw')).congr (by rw [heq]) (by rw [heq])
      · exact (hsc.picks e w (hold w hscan hw')).congr (by rw [heq]) (by rw [heq])
      · exact (hsc.picks e w (hold w hscan hw')).congr (by rw [heq]) (by rw [heq])

/-! ### Answers -/

/-- An object is picked by the scan that looks at it. -/
theorem Move.marked (h : Move s e t) (hm : Made s) :
    (t.collector e).marked = (s.collector e).marked ∨
      ∃ r k rest, Work.scan r ∈ (s.object e).work ∧ (s.collector e).tmp = k :: rest ∧
        (s.object ⟨e.host, k⟩).maybeDeletable (s.collector e).gen = true ∧
        (t.collector e).marked = (s.collector e).marked ++ [k] ∧
        ∃ r', Work.scan r' ∈ (t.object e).work := by
  rcases h.collects hm with ⟨heq, -, -⟩ | ⟨-, heq, -⟩ | ⟨m, -, -, -, heq, -, -⟩ |
    ⟨r, k, rest, hw, htmp, hdel, heq, hwork⟩ | ⟨r, k, rest, -, -, heq, -⟩ |
    ⟨r, -, -, heq, -⟩ | ⟨-, heq, -⟩ | ⟨m, -, -, -, -, -, heq, -⟩ |
    ⟨m, ptrs, -, -, -, -, -, heq, -⟩
  · exact Or.inl (by rw [heq])
  · exact Or.inl (by rw [heq])
  · exact Or.inl (by rw [heq])
  · exact Or.inr ⟨r, k, rest, hw, htmp, hdel, by rw [heq], _,
      hwork ▸ List.mem_append_right _ List.mem_cons_self⟩
  · exact Or.inl (by rw [heq])
  · exact Or.inl (by rw [heq])
  · exact Or.inl (by rw [heq])
  · exact Or.inl (by rw [heq])
  · exact Or.inl (by rw [heq])

theorem Collector.answers_of_kind {g : Collector} {b : Body} (h : b.kind ≠ some .answer) :
    g.Answers b := by
  cases b with
  | data ptrs => exact absurd rfl h
  | notify stage => cases stage <;> first | exact trivial | exact absurd rfl h
  | _ => exact trivial

theorem Collector.Answers.congr {g g' : Collector} {b : Body} (h : g.Answers b)
    (hmarked : g'.marked = g.marked) : g'.Answers b := by
  have heq : g'.Answers b = g.Answers b := by
    cases b with
    | notify stage => cases stage <;> simp only [Collector.Answers, hmarked]
    | _ => simp only [Collector.Answers, hmarked]
  exact heq ▸ h

/-- What a collector says is what it picked. -/
theorem Scans.answers_of_tells (hsc : Scans s) {b : Body} (h : Tells s e b) :
    (s.collector e).Answers b := by
  cases h with
  | respond r hw => exact (hsc.picks e _ hw).1
  | abort hw => exact (hsc.picks e _ hw).1
  | _ => exact trivial

theorem State.coming_pos {x : End} {m : Msg} {k : Kind} (h : s.Between x m)
    (hk : m.body.kind = some k) : 0 < s.tokens x (.there k) := by
  rw [State.tokens, State.coming]
  rcases h with ⟨hin, hsender⟩ | hw
  · have hpos : 0 < (s.channel x.peer.host).countP
        (fun m => m.sender = x.peer.pair ∧ m.body.kind = some k) :=
      List.countP_pos_iff.mpr ⟨m, hin, by simp [hsender, hk]⟩
    omega
  · have hpos : 0 < (s.object x.peer).work.countP (fun w => w.token = some (.here k)) :=
      List.countP_pos_iff.mpr ⟨_, hw, by simp [Work.token, hk]⟩
    omega

theorem Scans.answers_move (hsc : Scans s) (hm : Made s) (ht' : Tokens t) (h : Move s e t)
    {x : End} (hx : x.pair.collector = true) {m : Msg} (hb : t.Between x m) :
    (t.collector x).Answers m.body := by
  by_cases hkind : m.body.kind = some .answer
  · -- who is answered has scanned, and no longer picks
    have hmarked : (t.collector x).marked = (s.collector x).marked := by
      by_cases hxe : x = e
      · subst hxe
        rcases h.marked hm with hsame | ⟨-, -, -, -, -, -, -, r, hr⟩
        · exact hsame
        · have hzero := (ht'.of_scan hr rfl hx).2.2.2
          have hpos := State.coming_pos hb hkind
          omega
      · rw [h.collector hxe]
    have hold : s.Between x m → (t.collector x).Answers m.body :=
      fun hb => (hsc.answers x hx m hb).congr hmarked
    rcases hb with ⟨hin, hsender⟩ | hw
    · rcases h.channel_mem hm hin with hin | ⟨hh, hm', hch⟩
      · exact hold (Or.inl ⟨hin, hsender⟩)
      · have hxe : x = e := by
          rcases End.eq_or_peer (hsender.symm.trans hm'.sender) with heq | heq
          · exact heq
          · rw [heq] at hh
            simp at hh
        subst hxe
        refine Collector.Answers.congr ?_ hmarked
        exact hsc.answers_of_tells (h.tells hx hch)
    · by_cases hxe : x.peer = e
      · subst hxe
        rcases h.message_work hw with hw | ⟨rest, hch, hdst, -⟩
        · exact hold (Or.inr hw)
        · have hin : m ∈ s.channel x.peer.host := by
            rw [hch]
            exact List.mem_cons_self
          exact hold (Or.inl ⟨hin, hm.sender (x := x.peer) hin hdst⟩)
      · rw [h.object hxe] at hw
        exact hold (Or.inr hw)
  · exact Collector.answers_of_kind hkind

/-- The objects picked do not change once the other side has heard of them. -/
theorem Move.marked_of_heard (h : Move s e t) (hm : Made s) (ht : Tokens s)
    (hheard : (s.collector e.peer).heard = true) :
    (t.collector e).marked = (s.collector e).marked := by
  rcases h.marked hm with hsame | ⟨r, -, -, hr, -⟩
  · exact hsame
  · rw [(ht.of_scan hr rfl (hm.work e _ hr).2).2.2.1] at hheard
    cases hheard

theorem Scans.dropped_move (hsc : Scans s) (hm : Made s) (ht : Tokens s)
    (h : Move s e t) {x : End} (hheard : (t.collector x).heard = true) :
    (t.collector x).dropped =
      (t.collector x).marked.filter (fun k => k ∈ (t.collector x.peer).marked) := by
  by_cases hxe : x = e
  · subst hxe
    rw [h.collector x.peer_ne]
    have hok := hsc.ok x
    have hold : (s.collector x).heard = true → (t.collector x).dropped = (s.collector x).dropped →
        (t.collector x).dropped =
          (t.collector x).marked.filter (fun k => k ∈ (s.collector x.peer).marked) := by
      intro hheard hdropped
      have hmarked : (t.collector x).marked = (s.collector x).marked := by
        rcases h.marked hm with hsame | ⟨r, k, rest, -, htmp, -⟩
        · exact hsame
        · have hcomp := hok.incomplete_of_tmp htmp
          rw [hok.heard hheard] at hcomp
          cases hcomp
      rw [hdropped, hmarked, hsc.dropped x hheard]
    rcases h.collects hm with ⟨heq, -, -⟩ | ⟨-, heq, -⟩ | ⟨m, -, -, -, heq, -, -⟩ |
      ⟨r, k, rest, -, -, -, heq, -⟩ | ⟨r, k, rest, -, -, heq, -⟩ | ⟨r, -, -, heq, -⟩ |
      ⟨-, heq, -⟩ | ⟨m, hw, -, -, he, hbody, heq, -⟩ | ⟨m, ptrs, hw, -, -, he, hbody, heq, -⟩
    · rw [heq] at hheard
      exact hold hheard (by rw [heq])
    · rw [heq] at hheard
      exact hold hheard (by rw [heq])
    · rw [heq] at hheard
      exact hold hheard (by rw [heq])
    · rw [heq] at hheard
      exact hold hheard (by rw [heq])
    · rw [heq] at hheard
      exact hold hheard (by rw [heq])
    · rw [heq] at hheard
      exact hold hheard (by rw [heq])
    · rw [heq] at hheard
      exact hold hheard (by rw [heq])
    · -- the other side picked nothing
      obtain ⟨hdropped, -⟩ := hok.unheard (ht.of_answer hw (by rw [hbody]; rfl) he)
      have hpeer : (s.collector x.peer).marked = [] := by
        have hans := hsc.answers x.peer he m (Or.inr (by rw [End.peer_peer]; exact hw))
        rw [hbody] at hans
        exact hans
      rw [heq]
      simp [hdropped, hpeer]
    · -- the other side says what it picked
      obtain ⟨hdropped, hdead⟩ := hok.unheard (ht.of_answer hw (by rw [hbody]; rfl) he)
      have hpeer : ptrs = (s.collector x.peer).marked.map some := by
        have hans := hsc.answers x.peer he m (Or.inr (by rw [End.peer_peer]; exact hw))
        rw [hbody] at hans
        exact hans
      rw [heq]
      simp [hdropped, hpeer, hdead]
  · rw [h.collector hxe] at hheard ⊢
    rw [hsc.dropped x hheard]
    by_cases hpe : x.peer = e
    · subst hpe
      rw [h.marked_of_heard hm ht (by rw [End.peer_peer]; exact hheard)]
    · rw [h.collector hpe]

theorem Scans.move (hsc : Scans s) (hm : Made s) (hs : Swaps s) (ht : Tokens s)
    (h : Move s e t) : Scans t where
  ok := by
    intro x
    by_cases hx : x = e
    · subst hx
      exact hsc.ok_move hm hs ht h
    · rw [h.collector hx]
      exact hsc.ok x
  scanning := by
    intro x htmp
    by_cases hx : x = e
    · subst hx
      exact hsc.scanning_move hm hs h htmp
    · rw [h.collector hx] at htmp
      rw [h.object hx]
      exact hsc.scanning x htmp
  picks := by
    intro x
    by_cases hx : x = e
    · subst hx
      exact hsc.picks_move hm ht h
    · rw [h.collector hx, h.object hx]
      exact hsc.picks x
  answers := fun x hx m hb => hsc.answers_move hm (ht.move hm hs h) h hx hb
  dropped := fun x hheard => hsc.dropped_move hm ht h hheard

theorem Collector.Ok.blank : Collector.blank.Ok where
  unswapped := fun _ => ⟨rfl, rfl, rfl⟩
  unasked := fun _ => ⟨rfl, rfl⟩
  unheard := fun _ => ⟨rfl, rfl⟩
  heard := fun h => by cases h
  complete := fun h => by cases h
  incomplete := fun _ => List.Perm.refl _

theorem Scans.initial : Scans State.initial where
  ok := fun _ => Collector.Ok.blank
  scanning := fun _ h => absurd rfl h
  picks := fun _ _ hw => by cases hw
  answers := by
    rintro x hx m (⟨hin, -⟩ | hw)
    · cases hin
    · cases hw
  dropped := fun _ h => by cases h

end PbDistributedGC
