import PetaBricks.DistributedGCModel

/-! # Distributed collection moves — what one step can do

    `Move` lists every change an allowed step can make, with the end it is made
    for and what the code has checked by then; `move_of_step` is the one place
    where the step function is unfolded.  A move changes one end, writes or reads
    one message at most, and leaves an end nobody has work or a reference for as
    it is, unless it reads a message to it. -/

namespace PbDistributedGC

open PbTransition

namespace State

variable (s : State) (e x : End)

/-! ## What the operations change -/

section SetObject

variable (o : RemoteObject)

@[simp] theorem setObject_channel : (s.setObject e o).channel = s.channel := rfl
@[simp] theorem setObject_table : (s.setObject e o).table = s.table := rfl
@[simp] theorem setObject_currentGen : (s.setObject e o).currentGen = s.currentGen := rfl
@[simp] theorem setObject_collector : (s.setObject e o).collector = s.collector := rfl
@[simp] theorem setObject_made : (s.setObject e o).made = s.made := rfl
@[simp] theorem setObject_pairs : (s.setObject e o).pairs = s.pairs := rfl
@[simp] theorem setObject_object :
    (s.setObject e o).object = Function.update s.object e o := rfl

end SetObject

section SetCollector

variable (g : Collector)

@[simp] theorem setCollector_channel : (s.setCollector e g).channel = s.channel := rfl
@[simp] theorem setCollector_table : (s.setCollector e g).table = s.table := rfl
@[simp] theorem setCollector_currentGen : (s.setCollector e g).currentGen = s.currentGen := rfl
@[simp] theorem setCollector_object : (s.setCollector e g).object = s.object := rfl
@[simp] theorem setCollector_made : (s.setCollector e g).made = s.made := rfl
@[simp] theorem setCollector_pairs : (s.setCollector e g).pairs = s.pairs := rfl
@[simp] theorem setCollector_collector :
    (s.setCollector e g).collector = Function.update s.collector e g := rfl

end SetCollector

section SendMsg

variable (body : Body) (srcptr dstptr : EncodedPtr)

@[simp] theorem sendMsg_table : (s.sendMsg e body srcptr dstptr).table = s.table := by
  rw [sendMsg]; split <;> rfl

@[simp] theorem sendMsg_currentGen :
    (s.sendMsg e body srcptr dstptr).currentGen = s.currentGen := by
  rw [sendMsg]; split <;> rfl

@[simp] theorem sendMsg_collector :
    (s.sendMsg e body srcptr dstptr).collector = s.collector := by
  rw [sendMsg]; split <;> rfl

@[simp] theorem sendMsg_made : (s.sendMsg e body srcptr dstptr).made = s.made := by
  rw [sendMsg]; split <;> rfl

@[simp] theorem sendMsg_pairs : (s.sendMsg e body srcptr dstptr).pairs = s.pairs := by
  rw [sendMsg]; split <;> rfl

@[simp] theorem sendMsg_channel :
    (s.sendMsg e body srcptr dstptr).channel = Function.update s.channel (!e.host)
      (s.channel (!e.host) ++ [⟨body, srcptr, dstptr, e.pair, s.currentGen e.host⟩]) := by
  rw [sendMsg]; split <;> rfl

theorem sendMsg_object :
    (s.sendMsg e body srcptr dstptr).object = if srcptr.isSome then
      Function.update s.object e { s.object e with lastMsgGen := s.currentGen e.host }
      else s.object := by
  rw [sendMsg]; split <;> rfl

theorem sendMsg_object_of_ne (h : x ≠ e) :
    (s.sendMsg e body srcptr dstptr).object x = s.object x := by
  rw [sendMsg_object]
  split
  · exact Function.update_of_ne h _ _
  · rfl

/-- A message with a source stamps it. -/
theorem sendMsg_stamped :
    (s.sendMsg e body (some e.pair) dstptr).object e =
      { s.object e with lastMsgGen := s.currentGen e.host } := by
  rw [sendMsg_object]
  exact Function.update_self _ _ _

end SendMsg

end State

/-! ## Moves -/

/-- What an allowed step can do for the end `e`. -/
inductive Move (s : State) : End → State → Prop where
  | createRemoteObject (e : End) (hnew : e.pair ∉ s.pairs) : Move s e (s.createRemoteObject e)
  | send (e : End) (ptrs : List EncodedPtr) (hu : s.usable e = true) :
      Move s e (s.sendData e ptrs)
  | notify (e : End) (stage : NotifyStages) (hu : s.usable e = true)
      (hb : s.behind e = false) : Move s e (s.remoteNotify e stage)
  | retain (e : End) (hc : e.pair.collector = false) (hh : (s.object e).held = true) :
      Move s e (s.setObject e { s.object e with refs := (s.object e).refs + 1 })
  | release (e : End) (hr : 0 < (s.object e).refs) :
      Move s e (s.setObject e { s.object e with refs := (s.object e).refs - 1 })
  | read (e : End) (m : Msg) (rest : List Msg) (hch : s.channel e.host = m :: rest)
      (hdst : m.dstptr = some e.pair) :
      Move s e (({ s with channel := Function.update s.channel e.host rest }).setObject e
        { s.object e with
          work := (s.object e).work ++ [Work.message m]
          lastMsgGen := s.currentGen e.host })
  | readCreate (e : End) (m : Msg) (rest : List Msg) (hch : s.channel e.host = m :: rest)
      (hdst : m.dstptr = none) (hbody : m.body = .create) (hsrc : m.srcptr = some e.pair) :
      Move s e (({ s with channel := Function.update s.channel e.host rest }).addWork e
        .construct)
  | construct (e : End) (hw : Work.construct ∈ (s.object e).work) : Move s e (s.construct e)
  | openWith (e : End) (m : Msg) (hw : Work.message m ∈ (s.object e).work)
      (hc : (s.object e).created = false) (hsrc : m.srcptr.isSome = true) :
      Move s e (s.openWith e m)
  | skip (e : End) (m : Msg) (hw : Work.message m ∈ (s.object e).work)
      (hbody : e.pair.collector = true → m.body = .create ∨ m.body = .createAck) :
      Move s e (s.endWork e (.message m))
  | flushed (e : End) (m : Msg) (hw : Work.message m ∈ (s.object e).work)
      (hcan : s.canDo e (Work.message m) = true) (hc : (s.object e).created = true)
      (he : e.pair.collector = true) (hbody : m.body = .notify .FLUSH_MSGS)
      (hb : s.behind e = false) :
      Move s e ((s.endWork e (.message m)).remoteNotify e .DO_SCAN)
  | beginScan (e : End) (m : Msg) (hw : Work.message m ∈ (s.object e).work)
      (hcan : s.canDo e (Work.message m) = true) (hc : (s.object e).created = true)
      (he : e.pair.collector = true) (hbody : m.body = .notify .DO_SCAN) :
      Move s e ((s.endWork e (.message m)).beginScan e)
  | aborted (e : End) (m : Msg) (hw : Work.message m ∈ (s.object e).work)
      (hcan : s.canDo e (Work.message m) = true) (hc : (s.object e).created = true)
      (he : e.pair.collector = true) (hbody : m.body = .notify .ABORT_GC) :
      Move s e ((s.endWork e (.message m)).onNotify e .ABORT_GC)
  | onRecv (e : End) (m : Msg) (ptrs : List EncodedPtr) (hw : Work.message m ∈ (s.object e).work)
      (hcan : s.canDo e (Work.message m) = true) (hc : (s.object e).created = true)
      (he : e.pair.collector = true) (hbody : m.body = .data ptrs) :
      Move s e ((s.endWork e (.message m)).onRecv e ptrs)
  | swap (e : End) (hw : Work.swap ∈ (s.object e).work) :
      Move s e (((s.endWork e .swap).swapObjects e).addWork e .flush)
  | flush (e : End) (hw : Work.flush ∈ (s.object e).work) (hb : s.behind e = false) :
      Move s e ((s.endWork e .flush).remoteNotify e .FLUSH_MSGS)
  | scan (e : End) (response : List EncodedPtr) (hw : Work.scan response ∈ (s.object e).work) :
      Move s e (s.scanNext e response)
  | respond (e : End) (response : List EncodedPtr)
      (hw : Work.respond response ∈ (s.object e).work) :
      Move s e ((s.endWork e (.respond response)).sendData e response)
  | abort (e : End) (hw : Work.abort ∈ (s.object e).work) (hb : s.behind e = false) :
      Move s e (((s.endWork e .abort).remoteNotify e .ABORT_GC).finishup e)
  | addObject (e : End) (received : Bool) (hw : Work.addObject received ∈ (s.object e).work) :
      Move s e ((s.endWork e (.addObject received)).addObject e)

/-- **WHAT AN ALLOWED STEP CAN DO.** -/
theorem move_of_step {s t : State} {a : Act} (ha : allowed s a = true)
    (h : step s a = some t) : ∃ e, Move s e t := by
  cases a with
  | createRemoteObject e =>
      rw [step] at h
      split at h
      · cases h
      · cases h
        exact ⟨e, .createRemoteObject e ‹_›⟩
  | send e ptrs =>
      rw [step] at h
      split at h
      · cases h
        exact ⟨e, .send e ptrs ‹_›⟩
      · cases h
  | notify e stage =>
      rw [step] at h
      rw [allowed, Bool.not_eq_true'] at ha
      split at h
      · cases h
        exact ⟨e, .notify e stage ‹_› ha⟩
      · cases h
  | retain e =>
      rw [step] at h
      split at h
      · rename_i hcond
        rw [Bool.and_eq_true, Bool.not_eq_true'] at hcond
        cases h
        exact ⟨e, .retain e hcond.1 hcond.2⟩
      · cases h
  | release e =>
      rw [step] at h
      split at h
      · cases h
        exact ⟨e, .release e ‹_›⟩
      · cases h
  | recv h' =>
      rw [step, State.recv] at h
      split at h
      · cases h
      · rename_i m rest hch
        simp only at h
        split at h
        · rename_i k hdst
          cases h
          exact ⟨⟨h', k⟩, .read ⟨h', k⟩ m rest hch hdst⟩
        · rename_i k hdst hbody hsrc
          cases h
          exact ⟨⟨h', k⟩, .readCreate ⟨h', k⟩ m rest hch hdst hbody hsrc⟩
        · cases h
  | work e w =>
      rw [step, State.doWork.eq_def] at h
      split at h
      · rename_i hcond
        obtain ⟨hw, hcan⟩ := hcond
        refine ⟨e, ?_⟩
        cases w with
        | construct =>
            cases h
            exact .construct e hw
        | message m =>
            simp only [allowed] at ha
            simp only at h
            by_cases hc : (s.object e).created = true
            · rw [if_pos hc] at h ha
              by_cases he : e.pair.collector = true
              · rw [if_pos he, State.handle] at h
                cases hbody : m.body with
                | create =>
                    rw [hbody] at h
                    cases h
                    exact .skip e m hw (fun _ => Or.inl hbody)
                | createAck =>
                    rw [hbody] at h
                    cases h
                    exact .skip e m hw (fun _ => Or.inr hbody)
                | data ptrs =>
                    rw [hbody] at h
                    cases h
                    exact .onRecv e m ptrs hw hcan hc he hbody
                | notify stage =>
                    rw [hbody] at h
                    cases stage with
                    | FLUSH_MSGS =>
                        cases h
                        rw [hbody, he] at ha
                        exact .flushed e m hw hcan hc he hbody (by simpa using ha)
                    | DO_SCAN =>
                        cases h
                        exact .beginScan e m hw hcan hc he hbody
                    | ABORT_GC =>
                        cases h
                        exact .aborted e m hw hcan hc he hbody
              · rw [if_neg he] at h
                cases h
                exact .skip e m hw (fun hcol => absurd hcol he)
            · rw [if_neg hc] at h ha
              cases h
              exact .openWith e m hw (Bool.not_eq_true _ ▸ hc) ha
        | swap =>
            cases h
            exact .swap e hw
        | flush =>
            rw [allowed, Bool.not_eq_true'] at ha
            cases h
            exact .flush e hw ha
        | scan response =>
            cases h
            exact .scan e response hw
        | respond response =>
            cases h
            exact .respond e response hw
        | abort =>
            rw [allowed, Bool.not_eq_true'] at ha
            cases h
            exact .abort e hw ha
        | addObject received =>
            cases h
            exact .addObject e received hw
      · cases h

/-! ## Frames -/

section Frames

open State

variable {s t : State} {e : End}

theorem scanNext_frame (s : State) (e : End) (r : List EncodedPtr) :
    (s.scanNext e r).channel = s.channel ∧ (s.scanNext e r).table = s.table ∧
      (s.scanNext e r).currentGen = s.currentGen ∧ (s.scanNext e r).made = s.made ∧
      (s.scanNext e r).pairs = s.pairs ∧
      (∀ x, x ≠ e → (s.scanNext e r).object x = s.object x) ∧
      ∀ x, x ≠ e → (s.scanNext e r).collector x = s.collector x := by
  rw [State.scanNext]
  cases (s.collector e).tmp with
  | nil =>
      refine ⟨rfl, rfl, rfl, rfl, rfl, fun x hx => ?_, fun x hx => rfl⟩
      simp [addWork, endWork, Function.update_of_ne hx]
  | cons k rest =>
      simp only
      split
      · refine ⟨rfl, rfl, rfl, rfl, rfl, fun x hx => ?_, fun x hx => ?_⟩ <;>
          simp [addWork, endWork, Function.update_of_ne hx]
      · refine ⟨rfl, rfl, rfl, rfl, rfl, fun x hx => rfl, fun x hx => ?_⟩
        simp [Function.update_of_ne hx]

/-- A move changes one end. -/
theorem Move.object (h : Move s e t) {x : End} (hx : x ≠ e) : t.object x = s.object x := by
  cases h with
  | scan response hw => exact (scanNext_frame s e response).2.2.2.2.2.1 x hx
  | construct hw =>
      rw [State.construct]
      split <;> simp [sendMsg_object_of_ne _ _ _ _ _ _ hx, Function.update_of_ne hx]
  | _ =>
      simp [State.createRemoteObject, State.sendData, State.remoteNotify, State.addWork,
        State.endWork, State.openWith, State.beginScan, State.onNotify, State.onRecv,
        State.finishup, State.swapObjects, State.addObject,
        sendMsg_object_of_ne _ _ _ _ _ _ hx, Function.update_of_ne hx]

theorem Move.collector (h : Move s e t) {x : End} (hx : x ≠ e) :
    t.collector x = s.collector x := by
  cases h with
  | scan response hw => exact (scanNext_frame s e response).2.2.2.2.2.2 x hx
  | construct hw =>
      rw [State.construct]
      split <;> simp
  | _ =>
      simp [State.createRemoteObject, State.sendData, State.remoteNotify, State.addWork,
        State.endWork, State.openWith, State.beginScan, State.onNotify, State.onRecv,
        State.finishup, State.swapObjects, State.addObject, Function.update_of_ne hx]

theorem Move.made (h : Move s e t) {x : End} (hx : x ≠ e) : t.made x = s.made x := by
  cases h with
  | scan response hw => rw [(scanNext_frame s e response).2.2.2.1]
  | construct hw =>
      rw [State.construct]
      split <;> simp [Function.update_of_ne hx]
  | _ =>
      simp [State.createRemoteObject, State.sendData, State.remoteNotify, State.addWork,
        State.endWork, State.openWith, State.beginScan, State.onNotify, State.onRecv,
        State.finishup, State.swapObjects, State.addObject, Function.update_of_ne hx]


end Frames

end PbDistributedGC
