import PetaBricks.DistributedGCMoves

/-! # Distributed collection — ends are made once

    What a move leaves of the work of its end, what it writes and what it reads
    (`Move.work`, `Move.channels`), and the first invariant, `Made`: an end is made
    once, by `createRemoteObject` or by the one CREATE message that asks for it; an
    end that is created knows its peer; and every message is from an end that is made
    to its peer, or asks for the peer. -/

namespace PbDistributedGC

open State

/-- The work of a collector that is under way. -/
def Work.running : Work → Bool
  | .swap | .flush | .scan _ | .respond _ | .abort => true
  | _ => false

/-- A move makes this item of work. -/
inductive Fresh (s t : State) (e : End) : Work → Prop where
  | addObject (received : Bool) : Fresh s t e (.addObject received)
  | message (m : Msg) (rest : List Msg) (hch : s.channel e.host = m :: rest)
      (hdst : m.dstptr = some e.pair) : Fresh s t e (.message m)
  | construct (m : Msg) (rest : List Msg) (hch : s.channel e.host = m :: rest)
      (hdst : m.dstptr = none) (hsrc : m.srcptr = some e.pair) : Fresh s t e .construct
  | running (w : Work) (hrun : w.running = true) (hc : (t.object e).created = true)
      (he : e.pair.collector = true) : Fresh s t e w

/-- The object of a CREATE message that was read. -/
def RemoteObject.requested : RemoteObject := ⟨false, none, 0, 0, [.construct]⟩

/-- What the state says of an item of work of `e`. -/
def WorkOk (s : State) (e : End) : Work → Prop
  | .construct => s.made e.peer = true
  | .message m => m.sender = e.pair ∧ m.body ≠ .create ∧ s.made e.peer = true ∧
      (m.srcptr = some e.pair ∨ m.srcptr = none)
  | .addObject _ => True
  | _ => (s.object e).created = true ∧ e.pair.collector = true

/-- What the state says of a message to `h`. -/
def SentOk (s : State) (h : Host) (m : Msg) : Prop :=
  s.made ⟨!h, m.sender⟩ = true ∧
    (m.body = .create ∧ m.srcptr = some m.sender ∧ m.dstptr = none ∨
      m.body ≠ .create ∧ (m.srcptr = some m.sender ∨ m.srcptr = none) ∧
        m.dstptr = some m.sender ∧ s.made ⟨h, m.sender⟩ = true)

/-- How many CREATE messages for `x` are on their way. -/
def State.createsFor (s : State) (x : End) : Nat :=
  (s.channel x.host).countP (fun m => m.sender = x.pair ∧ m.body = .create)

/-- Ends are made once, and only ends that are made send and are sent to. -/
structure Made (s : State) : Prop where
  unmade : ∀ e, s.made e = false → s.object e = .blank ∨ s.object e = .requested
  paired : ∀ e, s.made e = true → e.pair ∈ s.pairs
  created : ∀ e, (s.object e).created = true →
    (s.object e).remoteObj = some e.pair ∧ s.made e.peer = true
  work : ∀ e, ∀ w ∈ (s.object e).work, WorkOk s e w
  sent : ∀ h, ∀ m ∈ s.channel h, SentOk s h m
  once : ∀ e, s.createsFor e + (s.object e).work.count .construct + (s.made e).toNat ≤ 1

variable {s t : State} {e : End}

theorem scanNext_object (s : State) (e : End) (r : List EncodedPtr) :
    ((s.scanNext e r).object e).created = (s.object e).created ∧
      ((s.scanNext e r).object e).remoteObj = (s.object e).remoteObj ∧
      ((s.scanNext e r).object e).refs = (s.object e).refs ∧
      ((s.scanNext e r).object e).lastMsgGen = (s.object e).lastMsgGen := by
  rw [State.scanNext]
  cases (s.collector e).tmp with
  | nil => simp [addWork, endWork]
  | cons k rest =>
      simp only
      split <;> simp [addWork, endWork]

theorem construct_object (s : State) (e : End) : (s.construct e).object e =
    ⟨true, some e.pair, 0, s.currentGen e.host,
      if e.pair.collector then [.swap, .addObject true] else [.addObject true]⟩ := by
  rw [State.construct]
  split <;> simp [sendMsg_object]

theorem scanNext_work (s : State) (e : End) (r : List EncodedPtr) {w : Work}
    (hw : w ∈ ((s.scanNext e r).object e).work) :
    w ∈ (s.object e).work ∨ w.running = true := by
  have hadd : ∀ v : Work, v.running = true → ∀ u : State,
      (u.object e).work = (s.object e).work.erase (.scan r) →
      w ∈ ((u.addWork e v).object e).work → w ∈ (s.object e).work ∨ w.running = true := by
    intro v hv u hu hmem
    have hmem' : w ∈ (u.object e).work ∨ w = v := by simpa [addWork] using hmem
    rcases hmem' with h | rfl
    · exact Or.inl (List.mem_of_mem_erase (hu ▸ h))
    · exact Or.inr hv
  have hend : ((s.endWork e (.scan r)).object e).work = (s.object e).work.erase (.scan r) := by
    simp [endWork]
  rw [State.scanNext] at hw
  cases htmp : (s.collector e).tmp with
  | nil =>
      rw [htmp] at hw
      exact hadd _ (by split <;> rfl) _ hend hw
  | cons k rest =>
      rw [htmp] at hw
      simp only at hw
      split at hw
      · exact hadd _ rfl _ hend hw
      · exact Or.inl hw

/-- The work a move leaves is old or made by it. -/
theorem Move.work (h : Move s e t) (hs : Made s) {w : Work} (hw : w ∈ (t.object e).work) :
    w ∈ (s.object e).work ∨ Fresh s t e w := by
  cases h with
  | createRemoteObject hnew =>
      have : w ∈ [Work.addObject false] := by
        simpa [State.createRemoteObject, sendMsg_object] using hw
      rw [List.mem_singleton.mp this]
      exact Or.inr (.addObject false)
  | send ptrs hu => exact Or.inl (by simpa [State.sendData, sendMsg_object] using hw)
  | notify stage hu hb => exact Or.inl hw
  | retain hc hh => exact Or.inl (by simpa using hw)
  | release hr => exact Or.inl (by simpa using hw)
  | read m rest hch hdst =>
      have : w ∈ (s.object e).work ∨ w = .message m := by simpa using hw
      rcases this with hw | rfl
      · exact Or.inl hw
      · exact Or.inr (.message m rest hch hdst)
  | readCreate m rest hch hdst hbody hsrc =>
      have hw' : w ∈ (s.object e).work ∨ w = .construct := by
        simpa [State.addWork] using hw
      rcases hw' with hw | rfl
      · exact Or.inl hw
      · exact Or.inr (.construct m rest hch hdst hsrc)
  | construct hw₀ =>
      rw [construct_object] at hw
      have hc : ((s.construct e).object e).created = true := by rw [construct_object]
      by_cases he : e.pair.collector = true
      · rw [if_pos he] at hw
        rcases List.mem_pair.mp hw with rfl | rfl
        · exact Or.inr (.running _ rfl hc he)
        · exact Or.inr (.addObject true)
      · rw [if_neg he] at hw
        rw [List.mem_singleton.mp hw]
        exact Or.inr (.addObject true)
  | openWith m hw₀ hc hsrc =>
      by_cases he : e.pair.collector = true
      · have hw' : w = .swap ∨ w ∈ (s.object e).work := by
          simpa [State.openWith, he] using hw
        rcases hw' with rfl | hw
        · exact Or.inr (.running _ rfl (by simp [State.openWith]) he)
        · exact Or.inl hw
      · exact Or.inl (by simpa [State.openWith, he] using hw)
  | skip m hw₀ hbody =>
      exact Or.inl (List.mem_of_mem_erase (by simpa [State.endWork] using hw))
  | flushed m hw₀ hcan hc he hbody hb =>
      exact Or.inl (List.mem_of_mem_erase
        (by simpa [State.endWork, State.remoteNotify, sendMsg_object] using hw))
  | beginScan m hw₀ hcan hc he hbody =>
      have hw' : w ∈ (s.object e).work.erase (.message m) ∨ w = .scan [] := by
        simpa [State.beginScan, State.addWork, State.endWork] using hw
      rcases hw' with hw | rfl
      · exact Or.inl (List.mem_of_mem_erase hw)
      · exact Or.inr (.running _ rfl
          (by simpa [State.beginScan, State.addWork, State.endWork] using hc) he)
  | aborted m hw₀ hcan hc he hbody =>
      exact Or.inl (List.mem_of_mem_erase
        (by simpa [State.endWork, State.onNotify, State.finishup] using hw))
  | onRecv m ptrs hw₀ hcan hc he hbody =>
      exact Or.inl (List.mem_of_mem_erase
        (by simpa [State.endWork, State.onRecv, State.finishup] using hw))
  | swap hw₀ =>
      obtain ⟨hc, he⟩ := hs.work e _ hw₀
      have hw' : w ∈ (s.object e).work.erase .swap ∨ w = .flush := by
        simpa [State.swapObjects, State.addWork, State.endWork] using hw
      rcases hw' with hw | rfl
      · exact Or.inl (List.mem_of_mem_erase hw)
      · exact Or.inr (.running _ rfl
          (by simpa [State.swapObjects, State.addWork, State.endWork] using hc) he)
  | flush hw₀ hb =>
      exact Or.inl (List.mem_of_mem_erase
        (by simpa [State.endWork, State.remoteNotify, sendMsg_object] using hw))
  | scan response hw₀ =>
      obtain ⟨hc, he⟩ := hs.work e _ hw₀
      rcases scanNext_work s e response hw with hw | hrun
      · exact Or.inl hw
      · exact Or.inr (.running w hrun ((scanNext_object s e response).1.trans hc) he)
  | respond response hw₀ =>
      exact Or.inl (List.mem_of_mem_erase
        (by simpa [State.endWork, State.sendData, sendMsg_object] using hw))
  | abort hw₀ hb =>
      exact Or.inl (List.mem_of_mem_erase
        (by simpa [State.endWork, State.remoteNotify, State.finishup, sendMsg_object] using hw))
  | addObject received hw₀ =>
      exact Or.inl (List.mem_of_mem_erase
        (by simpa [State.endWork, State.addObject] using hw))

/-- Nobody has a reference to the object or works for it. -/
def RemoteObject.Asleep (o : RemoteObject) : Prop := o.refs = 0 ∧ o.work = []

theorem RemoteObject.not_asleep_of_mem {o : RemoteObject} {w : Work} (hw : w ∈ o.work) :
    ¬ o.Asleep := fun h => List.not_mem_nil (h.2 ▸ hw)

theorem RemoteObject.not_asleep_of_held {o : RemoteObject} (h : o.held = true) : ¬ o.Asleep := by
  rintro ⟨hr, hw⟩
  rw [RemoteObject.held, hr, hw] at h
  simp at h

/-- A move of `e` writes this message. -/
inductive Emits (s t : State) (e : End) : Msg → Prop where
  | create (hnew : e.pair ∉ s.pairs) (hm : t.made e = true) :
      Emits s t e ⟨.create, some e.pair, none, e.pair, s.currentGen e.host⟩
  | createAck (hw : Work.construct ∈ (s.object e).work)
      (hm : t.made e = true) (hl : (t.object e).lastMsgGen = s.currentGen e.host) :
      Emits s t e ⟨.createAck, some e.pair, some e.pair, e.pair, s.currentGen e.host⟩
  | stamped (body : Body) (hbody : body ≠ .create) (hc : (s.object e).created = true)
      (ha : ¬ (s.object e).Asleep) (hl : (t.object e).lastMsgGen = s.currentGen e.host) :
      Emits s t e ⟨body, some e.pair, (s.object e).remoteObj, e.pair, s.currentGen e.host⟩
  | notify (stage : NotifyStages) (hc : (s.object e).created = true)
      (ha : ¬ (s.object e).Asleep) (hb : s.behind e = false) :
      Emits s t e
        ⟨.notify stage, none, (s.object e).remoteObj, e.pair, s.currentGen e.host⟩

/-- A move of `e` reads this message. -/
inductive Takes (s t : State) (e : End) (m : Msg) : Prop where
  | message (hdst : m.dstptr = some e.pair)
      (ht : t.object e = { s.object e with
        work := (s.object e).work ++ [.message m]
        lastMsgGen := s.currentGen e.host })
  | create (hdst : m.dstptr = none) (hbody : m.body = .create) (hsrc : m.srcptr = some e.pair)
      (ht : t.object e = { s.object e with work := (s.object e).work ++ [.construct] })

/-- What a move does to the channels: nothing, or it writes a message to the other host, or
    it reads one. -/
inductive Channels (s t : State) (e : End) : Prop where
  | same (h : t.channel = s.channel)
  | emits (m : Msg) (hm : Emits s t e m)
      (h : t.channel = Function.update s.channel (!e.host) (s.channel (!e.host) ++ [m]))
  | takes (m : Msg) (rest : List Msg) (hm : Takes s t e m) (hch : s.channel e.host = m :: rest)
      (h : t.channel = Function.update s.channel e.host rest)

theorem Move.channels (h : Move s e t) (hs : Made s) : Channels s t e := by
  cases h with
  | createRemoteObject hnew =>
      refine .emits _ (.create hnew ?_) ?_ <;> simp [State.createRemoteObject]
  | send ptrs hu =>
      rw [State.usable, Bool.and_eq_true, Bool.and_eq_true] at hu
      refine .emits _ (.stamped (.data ptrs) (by simp) hu.1.2
        (RemoteObject.not_asleep_of_held hu.2) ?_) ?_
      · rw [State.sendData, sendMsg_stamped]
      · simp [State.sendData]
  | notify stage hu hb =>
      rw [State.usable, Bool.and_eq_true, Bool.and_eq_true] at hu
      refine .emits _ (.notify stage hu.1.2 (RemoteObject.not_asleep_of_held hu.2) hb) ?_
      simp [State.remoteNotify]
  | read m rest hch hdst =>
      refine .takes m rest (.message hdst ?_) hch ?_ <;> simp
  | readCreate m rest hch hdst hbody hsrc =>
      refine .takes m rest (.create hdst hbody hsrc ?_) hch ?_ <;> simp [State.addWork]
  | construct hw =>
      by_cases hack : e.pair.skipCreateAck = true
      · refine .same ?_
        rw [State.construct, if_pos hack]
        rfl
      · refine .emits _ (.createAck hw ?_ ?_) ?_
        · rw [State.construct, if_neg hack]
          simp
        · rw [construct_object]
        · rw [State.construct, if_neg hack]
          simp
  | flushed m hw hcan hc he hbody hb =>
      refine .emits _ (.notify .DO_SCAN hc (RemoteObject.not_asleep_of_mem hw) hb) ?_
      simp [State.remoteNotify, State.endWork]
  | flush hw hb =>
      refine .emits _ (.notify .FLUSH_MSGS (hs.work e _ hw).1
        (RemoteObject.not_asleep_of_mem hw) hb) ?_
      simp [State.remoteNotify, State.endWork]
  | respond response hw =>
      refine .emits _ (.stamped (.data response) (by simp) (hs.work e _ hw).1
        (RemoteObject.not_asleep_of_mem hw) ?_) ?_
      · rw [State.sendData, sendMsg_stamped]
        rfl
      · simp [State.sendData, State.endWork]
  | abort hw hb =>
      refine .emits _ (.notify .ABORT_GC (hs.work e _ hw).1
        (RemoteObject.not_asleep_of_mem hw) hb) ?_
      simp [State.remoteNotify, State.endWork, State.finishup]
  | scan response hw => exact .same (scanNext_frame s e response).1
  | _ =>
      refine .same ?_
      simp [State.addWork, State.endWork, State.openWith, State.beginScan, State.onNotify,
        State.onRecv, State.finishup, State.swapObjects, State.addObject]

/-- What is on its way was so before, or is written now. -/
theorem Move.channel_mem (h : Move s e t) (hs : Made s) {x : Host} {m : Msg}
    (hin : m ∈ t.channel x) : m ∈ s.channel x ∨ x = (!e.host) ∧ Emits s t e m ∧
      t.channel (!e.host) = s.channel (!e.host) ++ [m] := by
  rcases h.channels hs with hsame | ⟨m', hm', hch⟩ | ⟨m', rest, -, hhead, hch⟩
  · exact Or.inl (hsame ▸ hin)
  · by_cases hx : x = !e.host
    · subst hx
      rw [hch, Function.update_self] at hin
      rcases List.mem_append.mp hin with hin | hin
      · exact Or.inl hin
      · rw [List.mem_singleton.mp hin]
        exact Or.inr ⟨rfl, hm', hch ▸ Function.update_self _ _ _⟩
    · rw [hch, Function.update_of_ne hx] at hin
      exact Or.inl hin
  · by_cases hx : x = e.host
    · subst hx
      rw [hch, Function.update_self] at hin
      rw [hhead]
      exact Or.inl (List.mem_cons_of_mem m' hin)
    · rw [hch, Function.update_of_ne hx] at hin
      exact Or.inl hin

/-- How an end gets to know its peer. -/
theorem Move.created (h : Move s e t) (hc : (t.object e).created = true) :
    (s.object e).created = true ∧ (t.object e).remoteObj = (s.object e).remoteObj ∨
    Work.construct ∈ (s.object e).work ∧ (t.object e).remoteObj = some e.pair ∨
    ∃ m, Work.message m ∈ (s.object e).work ∧ m.srcptr.isSome = true ∧
      (t.object e).remoteObj = m.srcptr := by
  cases h with
  | createRemoteObject hnew => simp [State.createRemoteObject, sendMsg_object] at hc
  | construct hw => exact Or.inr (Or.inl ⟨hw, by rw [construct_object]⟩)
  | openWith m hw hc' hsrc => exact Or.inr (Or.inr ⟨m, hw, hsrc, by simp [State.openWith]⟩)
  | scan response hw =>
      obtain ⟨h1, h2, _⟩ := scanNext_object s e response
      exact Or.inl ⟨h1 ▸ hc, h2⟩
  | _ =>
      left
      simpa [State.sendData, State.remoteNotify, State.addWork, State.endWork, State.beginScan,
        State.onNotify, State.onRecv, State.finishup, State.swapObjects, State.addObject,
        sendMsg_object] using hc

/-- What is made stays made. -/
theorem Move.made_mono (h : Move s e t) {x : End} (hx : s.made x = true) : t.made x = true := by
  by_cases hne : x = e
  · subst hne
    cases h with
    | createRemoteObject hnew => simp [State.createRemoteObject]
    | construct hw =>
        rw [State.construct]
        split <;> simp
    | scan response hw => rw [(scanNext_frame s x response).2.2.2.1, hx]
    | _ =>
        simpa [State.sendData, State.remoteNotify, State.addWork, State.endWork, State.openWith,
          State.beginScan, State.onNotify, State.onRecv, State.finishup, State.swapObjects,
          State.addObject] using hx
  · rw [h.made hne, hx]

theorem Move.pairs_mono (h : Move s e t) {k : Pair} (hk : k ∈ s.pairs) : k ∈ t.pairs := by
  cases h with
  | createRemoteObject hnew => simp [State.createRemoteObject, hk]
  | construct hw =>
      rw [State.construct]
      split <;> simpa using hk
  | scan response hw => rw [(scanNext_frame s e response).2.2.2.2.1]; exact hk
  | _ =>
      simpa [State.sendData, State.remoteNotify, State.addWork, State.endWork, State.openWith,
        State.beginScan, State.onNotify, State.onRecv, State.finishup, State.swapObjects,
        State.addObject] using hk

/-- An end that is made is new, or a CREATE message asked for it. -/
theorem Move.made_cases (h : Move s e t) (hm : t.made e = true) :
    s.made e = true ∨ e.pair ∈ t.pairs ∧ e.pair ∉ s.pairs ∨
      Work.construct ∈ (s.object e).work ∧ (t.object e).work.count .construct = 0 := by
  cases h with
  | createRemoteObject hnew => exact Or.inr (Or.inl ⟨by simp [State.createRemoteObject], hnew⟩)
  | construct hw =>
      refine Or.inr (Or.inr ⟨hw, ?_⟩)
      rw [construct_object]
      split <;> simp
  | scan response hw => exact Or.inl ((scanNext_frame s e response).2.2.2.1 ▸ hm)
  | _ =>
      left
      simpa [State.sendData, State.remoteNotify, State.addWork, State.endWork, State.openWith,
        State.beginScan, State.onNotify, State.onRecv, State.finishup, State.swapObjects,
        State.addObject] using hm

theorem Made.made (hs : Made s) {x : End} (hx : (s.object x).created = true ∨
    ∃ w, w ∈ (s.object x).work ∧ w ≠ .construct) : s.made x = true := by
  by_contra hm
  rcases hs.unmade x (Bool.not_eq_true _ ▸ hm) with h | h <;> rw [h] at hx <;>
    simp [RemoteObject.blank, RemoteObject.requested] at hx

theorem Move.created_mono (h : Move s e t) (hs : Made s) {x : End}
    (hx : (s.object x).created = true) : (t.object x).created = true := by
  by_cases hne : x = e
  · subst hne
    cases h with
    | createRemoteObject hnew => exact absurd (hs.paired x (hs.made (Or.inl hx))) hnew
    | construct hw => rw [construct_object]
    | scan response hw => exact (scanNext_object s x response).1.trans hx
    | openWith m hw hc hsrc => simp [State.openWith]
    | _ =>
        simpa [State.sendData, State.remoteNotify, State.addWork, State.endWork,
          State.beginScan, State.onNotify, State.onRecv, State.finishup, State.swapObjects,
          State.addObject, sendMsg_object] using hx
  · rw [h.object hne, hx]

theorem WorkOk.mono (h : Move s e t) (hs : Made s) {x : End} {w : Work} (hw : WorkOk s x w) :
    WorkOk t x w := by
  cases w with
  | construct => exact h.made_mono hw
  | message m => exact ⟨hw.1, hw.2.1, h.made_mono hw.2.2.1, hw.2.2.2⟩
  | addObject received => exact trivial
  | _ => exact ⟨h.created_mono hs hw.1, hw.2⟩

theorem SentOk.mono (h : Move s e t) {h' : Host} {m : Msg} (hm : SentOk s h' m) :
    SentOk t h' m := by
  refine ⟨h.made_mono hm.1, hm.2.imp id ?_⟩
  rintro ⟨h1, h2, h3, h4⟩
  exact ⟨h1, h2, h3, h.made_mono h4⟩

/-- A message that is read was sent by the peer. -/
theorem Made.taken (hs : Made s) {m : Msg} {rest : List Msg} (hch : s.channel e.host = m :: rest)
    (hm : Takes s t e m) : m.sender = e.pair ∧ SentOk s e.host m := by
  have hok := hs.sent e.host m (by rw [hch]; exact List.mem_cons_self)
  refine ⟨?_, hok⟩
  cases hm with
  | message hdst _ =>
      rcases hok.2 with ⟨_, _, hnone⟩ | ⟨_, _, hsome, _⟩
      · rw [hdst] at hnone
        cases hnone
      · rw [hdst] at hsome
        exact (Option.some.inj hsome).symm
  | create hdst hbody hsrc _ =>
      rcases hok.2 with ⟨_, hsrc', _⟩ | ⟨hne, _⟩
      · rw [hsrc] at hsrc'
        exact (Option.some.inj hsrc').symm
      · exact absurd hbody hne

theorem Emits.sender {m : Msg} (h : Emits s t e m) : m.sender = e.pair := by cases h <;> rfl

theorem Emits.stamp {m : Msg} (h : Emits s t e m) : m.stamp = s.currentGen e.host := by
  cases h <;> rfl

/-- What is written is all right in the state after. -/
theorem Emits.sentOk {m : Msg} (hm : Emits s t e m) (h : Move s e t) (hs : Made s) :
    SentOk t (!e.host) m := by
  have hself : ∀ b : Bool, t.made e = b → t.made ⟨!!e.host, e.pair⟩ = b := by
    intro b hb
    rw [Bool.not_not]
    exact hb
  cases hm with
  | create hnew hmade => exact ⟨hself _ hmade, Or.inl ⟨rfl, rfl, rfl⟩⟩
  | createAck hw hmade _ =>
      exact ⟨hself _ hmade, Or.inr ⟨by simp, Or.inl rfl, rfl,
        h.made_mono (hs.work e _ hw)⟩⟩
  | stamped body hbody hc ha _ =>
      obtain ⟨hremote, hpeer⟩ := hs.created e hc
      exact ⟨hself _ (h.made_mono (hs.made (Or.inl hc))),
        Or.inr ⟨hbody, Or.inl rfl, hremote, h.made_mono hpeer⟩⟩
  | notify stage hc ha hb =>
      obtain ⟨hremote, hpeer⟩ := hs.created e hc
      exact ⟨hself _ (h.made_mono (hs.made (Or.inl hc))),
        Or.inr ⟨by simp, Or.inr rfl, hremote, h.made_mono hpeer⟩⟩

theorem scanNext_count (s : State) (e : End) (r : List EncodedPtr) :
    ((s.scanNext e r).object e).work.count .construct = (s.object e).work.count .construct := by
  have herase : ((s.object e).work.erase (.scan r)).count Work.construct =
      (s.object e).work.count .construct := List.count_erase_of_ne (by simp)
  rw [State.scanNext]
  cases (s.collector e).tmp with
  | nil =>
      simp only
      split <;> simp [addWork, endWork, herase]
  | cons k rest =>
      simp only
      split <;> simp [addWork, endWork, herase]

/-- A move asks for an object to be made only by reading a CREATE message. -/
theorem Move.count_construct (h : Move s e t) :
    (t.object e).work.count .construct ≤ (s.object e).work.count .construct ∨
    ∃ m rest, Takes s t e m ∧ m.body = .create ∧ s.channel e.host = m :: rest ∧
      t.channel = Function.update s.channel e.host rest ∧ t.made = s.made ∧
      (t.object e).work.count .construct = (s.object e).work.count .construct + 1 := by
  cases h with
  | createRemoteObject hnew => simp [State.createRemoteObject, sendMsg_object]
  | readCreate m rest hch hdst hbody hsrc =>
      right
      refine ⟨m, rest, .create hdst hbody hsrc ?_, hbody, hch, ?_, ?_, ?_⟩ <;>
        simp [State.addWork]
  | construct hw =>
      left
      rw [construct_object]
      split <;> simp
  | openWith m hw hc hsrc =>
      left
      simp only [State.openWith, setObject_object, Function.update_self]
      split <;> simp
  | scan response hw => exact Or.inl (Nat.le_of_eq (scanNext_count s e response))
  | _ =>
      left
      simp [State.sendData, State.remoteNotify, State.addWork, State.endWork,
        State.beginScan, State.onNotify, State.onRecv, State.finishup, State.swapObjects,
        State.addObject, sendMsg_object]

/-- Nobody asks for an end of a pair nobody has named. -/
theorem Made.none_new (hs : Made s) {x : End} (hx : x.pair ∉ s.pairs) :
    s.createsFor x = 0 ∧ (s.object x).work.count .construct = 0 ∧ s.made x = false := by
  have hmade : s.made x = false := by
    by_contra hm
    exact hx (hs.paired x (Bool.not_eq_false _ ▸ hm))
  have hpeer : s.made x.peer ≠ true := fun hm => hx (hs.paired x.peer hm)
  refine ⟨?_, ?_, hmade⟩
  · rw [State.createsFor, List.countP_eq_zero]
    intro m hm hsender
    rw [decide_eq_true_eq] at hsender
    have hsent := (hs.sent x.host m hm).1
    rw [hsender.1] at hsent
    exact hpeer hsent
  · rw [List.count_eq_zero]
    intro hw
    exact hpeer (hs.work x _ hw)

/-- A move asks for an end of a new pair only. -/
theorem Move.createsFor (h : Move s e t) (hs : Made s) (x : End) :
    t.createsFor x ≤ s.createsFor x ∨
      x = e.peer ∧ e.pair ∉ s.pairs ∧ t.createsFor x = s.createsFor x + 1 := by
  rw [State.createsFor, State.createsFor]
  rcases h.channels hs with hsame | ⟨m, hm, hch⟩ | ⟨m, rest, hm, hold, hch⟩
  · exact Or.inl (Nat.le_of_eq (by rw [hsame]))
  · by_cases hx : x.host = !e.host
    · rw [hch, hx, Function.update_self, List.countP_append, List.countP_singleton]
      by_cases hp : m.sender = x.pair ∧ m.body = .create
      · right
        rw [if_pos (decide_eq_true hp)]
        have hpair : x.pair = e.pair := hp.1.symm.trans hm.sender
        refine ⟨?_, ?_, rfl⟩
        · cases x
          subst hx hpair
          rfl
        · cases hm with
          | create hnew _ => exact hnew
          | stamped body hbody _ _ _ => exact absurd hp.2 hbody
          | _ => cases hp.2
      · left
        rw [if_neg (by simpa using hp)]
        exact Nat.le_refl _
    · rw [hch, Function.update_of_ne hx]
      exact Or.inl (Nat.le_refl _)
  · left
    by_cases hx : x.host = e.host
    · rw [hch, hx, Function.update_self, hold]
      exact List.Sublist.countP_le (List.sublist_cons_self m rest)
    · exact Nat.le_of_eq (by rw [hch, Function.update_of_ne hx])

theorem Made.move_once (hs : Made s) (h : Move s e t) (x : End) :
    t.createsFor x + (t.object x).work.count .construct + (t.made x).toNat ≤ 1 := by
  have hold := hs.once x
  by_cases hx : x = e
  · subst hx
    have hle : t.createsFor x ≤ s.createsFor x := by
      rcases h.createsFor hs x with hle | ⟨heq, _⟩
      · exact hle
      · exact absurd (congrArg End.host heq) (by simp)
    rcases h.count_construct with hcount | ⟨m, rest, hm, hbody, hch, hch', hmade, hcount⟩
    · cases hm : t.made x with
      | false =>
          rw [Bool.toNat_false]
          omega
      | true =>
          rcases h.made_cases hm with hms | ⟨_, hnew⟩ | ⟨hw, hzero⟩
          · rw [hms] at hold
            omega
          · obtain ⟨h1, h2, _⟩ := hs.none_new hnew
            rw [Bool.toNat_true]
            omega
          · have hpos := List.count_pos_iff.mpr hw
            rw [Bool.toNat_true]
            omega
    · -- the message that was read is now the item of work
      have hsender := (hs.taken hch hm).1
      have hcreates : s.createsFor x = t.createsFor x + 1 := by
        rw [State.createsFor, State.createsFor, hch, hch', Function.update_self,
          List.countP_cons_of_pos (by simp [hsender, hbody])]
      rw [hmade]
      omega
  · rw [h.object hx, h.made hx]
    rcases h.createsFor hs x with hle | ⟨rfl, hnew, heq⟩
    · omega
    · obtain ⟨h1, h2, h3⟩ := hs.none_new (x := e.peer) hnew
      rw [heq, h1, h2, h3]
      exact Nat.le_refl _

theorem Made.move_unmade (hs : Made s) (h : Move s e t) (x : End) (hm : t.made x = false) :
    t.object x = .blank ∨ t.object x = .requested := by
  have hms : s.made x = false := by
    by_contra hms
    rw [h.made_mono (Bool.not_eq_false _ ▸ hms)] at hm
    cases hm
  have hold := hs.unmade x hms
  by_cases hx : x = e
  · subst hx
    have hcreated : (s.object x).created = false := by rcases hold with h | h <;> rw [h] <;> rfl
    have hrefs : (s.object x).refs = 0 := by rcases hold with h | h <;> rw [h] <;> rfl
    have hmsg : ∀ w ∈ (s.object x).work, w = .construct := by
      intro w hw
      rcases hold with h | h <;> rw [h] at hw
      · cases hw
      · exact List.mem_singleton.mp hw
    have hheld : (s.object x).held = false := by
      rw [RemoteObject.held, hcreated, hrefs]
      rfl
    have husable : s.usable x = false := by
      rw [State.usable, hheld, Bool.and_false]
    cases h with
    | createRemoteObject hnew => simp [State.createRemoteObject] at hm
    | send ptrs hu => rw [husable] at hu; cases hu
    | notify stage hu hb => rw [husable] at hu; cases hu
    | retain hc hh => rw [hheld] at hh; cases hh
    | release hr => rw [hrefs] at hr; cases hr
    | read m rest hch hdst =>
        -- a message to an end that is not made would have been sent by one that knows it
        have hok := hs.sent x.host m (by rw [hch]; exact List.mem_cons_self)
        rcases hok.2 with ⟨_, _, hnone⟩ | ⟨_, _, hsome, hmade⟩
        · rw [hdst] at hnone
          cases hnone
        · rw [hdst] at hsome
          rw [← Option.some.inj hsome] at hmade
          rw [hmade] at hms
          cases hms
    | readCreate m rest hch hdst hbody hsrc =>
        have hok := hs.sent x.host m (by rw [hch]; exact List.mem_cons_self)
        have hsender : m.sender = x.pair := by
          rcases hok.2 with ⟨_, hsrc', _⟩ | ⟨hne, _⟩
          · exact (Option.some.inj (hsrc.symm.trans hsrc')).symm
          · exact absurd hbody hne
        have hcreates : 0 < s.createsFor x := by
          rw [State.createsFor, List.countP_pos_iff]
          exact ⟨m, by rw [hch]; exact List.mem_cons_self, by simp [hsender, hbody]⟩
        rcases hold with hblank | hrequested
        · right
          simp [State.addWork, hblank, RemoteObject.blank, RemoteObject.requested]
        · have honce := hs.once x
          rw [hrequested, RemoteObject.requested, List.count_singleton_self] at honce
          omega
    | construct hw =>
        rw [State.construct] at hm
        split at hm <;> simp at hm
    | swap hw => cases hmsg _ hw
    | flush hw hb => cases hmsg _ hw
    | scan response hw => cases hmsg _ hw
    | respond response hw => cases hmsg _ hw
    | abort hw hb => cases hmsg _ hw
    | addObject received hw => cases hmsg _ hw
    | openWith m hw => cases hmsg _ hw
    | skip m hw => cases hmsg _ hw
    | flushed m hw => cases hmsg _ hw
    | beginScan m hw => cases hmsg _ hw
    | aborted m hw => cases hmsg _ hw
    | onRecv m ptrs hw => cases hmsg _ hw
  · rw [h.object hx]
    exact hold

/-- **ENDS ARE MADE ONCE**, whatever is done. -/
theorem Made.move (hs : Made s) (h : Move s e t) : Made t where
  unmade := hs.move_unmade h
  once := hs.move_once h
  paired := by
    intro x hx
    by_cases hxe : x = e
    · subst hxe
      rcases h.made_cases hx with hms | ⟨hnew, _⟩ | ⟨hw, _⟩
      · exact h.pairs_mono (hs.paired x hms)
      · exact hnew
      · exact h.pairs_mono (hs.paired x.peer (hs.work x _ hw))
    · rw [h.made hxe] at hx
      exact h.pairs_mono (hs.paired x hx)
  created := by
    intro x hx
    by_cases hxe : x = e
    · subst hxe
      rcases h.created hx with ⟨hc, hremote⟩ | ⟨hw, hremote⟩ | ⟨m, hw, hsrc, hremote⟩
      · obtain ⟨h1, h2⟩ := hs.created x hc
        exact ⟨hremote.trans h1, h.made_mono h2⟩
      · exact ⟨hremote, h.made_mono (hs.work x _ hw)⟩
      · obtain ⟨_, _, hmade, hsome | hnone⟩ := hs.work x _ hw
        · exact ⟨hremote.trans hsome, h.made_mono hmade⟩
        · rw [hnone] at hsrc
          cases hsrc
    · rw [h.object hxe] at hx ⊢
      obtain ⟨h1, h2⟩ := hs.created x hx
      exact ⟨h1, h.made_mono h2⟩
  work := by
    intro x w hw
    by_cases hxe : x = e
    · subst hxe
      rcases h.work hs hw with hold | hfresh
      · exact (hs.work x w hold).mono h hs
      · cases hfresh with
        | addObject received => exact trivial
        | message m rest hch hdst =>
            have hok := hs.sent x.host m (by rw [hch]; exact List.mem_cons_self)
            rcases hok.2 with ⟨_, _, hnone⟩ | ⟨hbody, hsrc, hsome, _⟩
            · rw [hdst] at hnone
              cases hnone
            · have hsender : m.sender = x.pair := (Option.some.inj (hdst.symm.trans hsome)).symm
              have hmade := hok.1
              rw [hsender] at hsrc hmade
              exact ⟨hsender, hbody, h.made_mono hmade, hsrc⟩
        | construct m rest hch hdst hsrc =>
            have hok := hs.sent x.host m (by rw [hch]; exact List.mem_cons_self)
            rcases hok.2 with ⟨_, hsome, _⟩ | ⟨_, _, hsome, _⟩
            · have hsender : m.sender = x.pair := (Option.some.inj (hsrc.symm.trans hsome)).symm
              have hmade := hok.1
              rw [hsender] at hmade
              exact h.made_mono hmade
            · rw [hdst] at hsome
              cases hsome
        | running w hrun hc he =>
            cases w <;> first | exact ⟨hc, he⟩ | cases hrun
    · rw [h.object hxe] at hw
      exact (hs.work x w hw).mono h hs
  sent := by
    intro x m hm
    rcases h.channel_mem hs hm with hold | ⟨rfl, hm', -⟩
    · exact (hs.sent x m hold).mono h
    · exact hm'.sentOk h hs

theorem Made.initial : Made State.initial where
  unmade := fun _ _ => Or.inl rfl
  paired := fun _ h => by cases h
  created := fun _ h => by cases h
  work := fun _ w hw => by cases hw
  sent := fun _ m hm => by cases hm
  once := fun _ => Nat.zero_le 1

end PbDistributedGC
