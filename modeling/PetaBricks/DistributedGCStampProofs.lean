import PetaBricks.DistributedGCEndProofs
import Mathlib.Order.Nat

/-! # Distributed collection — generations and what was sent before

    A message is stamped with the generation of the host it leaves, generations only
    grow, and a channel keeps the order of its messages.  So what is behind a FLUSH in
    the channel was sent under the generation of the collector that flushed, or a later
    one, and once the FLUSH is read, so was everything on its way (`Past`).  A collector
    that is asked to scan knows this of both directions (`Flushes`). -/

namespace PbDistributedGC

open State

variable {s t : State} {e : End}

/-! ## Generations -/

theorem Move.currentGen (h : Move s e t) (x : Host) : s.currentGen x ≤ t.currentGen x := by
  cases h with
  | swap hw =>
      by_cases hx : x = e.host
      · subst hx
        simp [State.swapObjects, State.addWork, State.endWork]
      · simp [State.swapObjects, State.addWork, State.endWork, Function.update_of_ne hx]
  | construct hw =>
      rw [State.construct]
      split <;> simp
  | scan response hw => rw [(scanNext_frame s e response).2.2.1]
  | _ =>
      simp [State.createRemoteObject, State.sendData, State.remoteNotify, State.addWork,
        State.endWork, State.openWith, State.beginScan, State.onNotify, State.onRecv,
        State.finishup, State.addObject]

/-- A move leaves the last generation of its end or stamps it. -/
theorem Move.lastMsgGen (h : Move s e t) :
    (t.object e).lastMsgGen = (s.object e).lastMsgGen ∨
      (t.object e).lastMsgGen = s.currentGen e.host := by
  cases h with
  | construct hw => exact Or.inr (by rw [construct_object])
  | scan response hw => exact Or.inl (scanNext_object s e response).2.2.2
  | createRemoteObject hnew => exact Or.inr (by simp [State.createRemoteObject, sendMsg_object])
  | send ptrs hu => exact Or.inr (by rw [State.sendData, sendMsg_stamped])
  | respond response hw =>
      refine Or.inr ?_
      rw [State.sendData, sendMsg_stamped]
      rfl
  | read m rest hch hdst => exact Or.inr (by simp)
  | _ =>
      left
      simp [State.remoteNotify, State.addWork, State.endWork, State.openWith, State.beginScan,
        State.onNotify, State.onRecv, State.finishup, State.swapObjects, State.addObject,
        sendMsg_object]

/-- Nothing has a later generation than its host, and messages leave in order. -/
structure Gens (s : State) : Prop where
  object : ∀ x, (s.object x).lastMsgGen ≤ s.currentGen x.host
  collector : ∀ c, (s.collector c).gen ≤ s.currentGen c.host
  stamp : ∀ h, ∀ m ∈ s.channel h, m.stamp ≤ s.currentGen (!h)
  sorted : ∀ h, (s.channel h).Pairwise (fun m m' => m.stamp ≤ m'.stamp)

/-- The generation of a collector changes when it takes the table. -/
theorem Move.gen (h : Move s e t) :
    (t.collector e).gen = (s.collector e).gen ∧
        (t.collector e).swapped = (s.collector e).swapped ∨
      Work.swap ∈ (s.object e).work ∧ (t.collector e).gen = s.currentGen e.host + 1 ∧
        t.currentGen e.host = s.currentGen e.host + 1 ∧ (t.collector e).swapped = true := by
  cases h with
  | swap hw =>
      exact Or.inr ⟨hw, by simp [State.swapObjects, State.addWork, State.endWork]⟩
  | construct hw =>
      left
      rw [State.construct]
      split <;> simp
  | scan response hw =>
      left
      rw [State.scanNext]
      cases (s.collector e).tmp with
      | nil => simp [addWork, endWork]
      | cons k rest =>
          simp only
          split <;> simp
  | _ =>
      left
      simp [State.createRemoteObject, State.sendData, State.remoteNotify, State.addWork,
        State.endWork, State.openWith, State.beginScan, State.onNotify, State.onRecv,
        State.finishup, State.addObject]

theorem Gens.object_mono (hs : Gens s) (h : Move s e t) (x : End) :
    (s.object x).lastMsgGen ≤ (t.object x).lastMsgGen := by
  by_cases hx : x = e
  · subst hx
    rcases h.lastMsgGen with heq | heq
    · exact heq.ge
    · rw [heq]
      exact hs.object x
  · rw [h.object hx]

theorem Gens.move (hs : Gens s) (hm : Made s) (h : Move s e t) : Gens t where
  object := by
    intro x
    refine le_trans ?_ (h.currentGen x.host)
    by_cases hx : x = e
    · subst hx
      rcases h.lastMsgGen with heq | heq
      · rw [heq]
        exact hs.object x
      · exact heq.le
    · rw [h.object hx]
      exact hs.object x
  collector := by
    intro c
    by_cases hc : c = e
    · subst hc
      rcases h.gen with ⟨heq, -⟩ | ⟨-, hgen, hcur, -⟩
      · rw [heq]
        exact (hs.collector c).trans (h.currentGen c.host)
      · rw [hgen, hcur]
    · rw [h.collector hc]
      exact (hs.collector c).trans (h.currentGen c.host)
  stamp := by
    intro x m hmem
    refine le_trans ?_ (h.currentGen (!x))
    rcases h.channel_mem hm hmem with hold | ⟨rfl, hm', -⟩
    · exact hs.stamp x m hold
    · rw [hm'.stamp, Bool.not_not]
  sorted := by
    intro x
    rcases h.channels hm with hsame | ⟨m', hm', hch⟩ | ⟨m', rest, -, hhead, hch⟩
    · rw [hsame]
      exact hs.sorted x
    · by_cases hx : x = !e.host
      · subst hx
        rw [hch, Function.update_self, List.pairwise_append]
        refine ⟨hs.sorted _, List.pairwise_singleton _ _, fun m hmem m'' hmem'' => ?_⟩
        rw [List.mem_singleton.mp hmem'', hm'.stamp]
        have hle := hs.stamp _ m hmem
        rwa [Bool.not_not] at hle
      · rw [hch, Function.update_of_ne hx]
        exact hs.sorted x
    · by_cases hx : x = e.host
      · subst hx
        rw [hch, Function.update_self]
        have hsorted := hs.sorted e.host
        rw [hhead] at hsorted
        exact (List.pairwise_cons.mp hsorted).2
      · rw [hch, Function.update_of_ne hx]
        exact hs.sorted x

theorem Gens.initial : Gens State.initial where
  object := fun _ => Nat.le_refl 0
  collector := fun _ => Nat.le_refl 0
  stamp := fun _ m hm => by cases hm
  sorted := fun _ => List.Pairwise.nil

/-! ## What collectors say -/

/-- Why a collector writes a message. -/
inductive Tells (s : State) (e : End) : Body → Prop where
  | create : Tells s e .create
  | createAck : Tells s e .createAck
  | flush (hw : Work.flush ∈ (s.object e).work) : Tells s e (.notify .FLUSH_MSGS)
  | doScan (m : Msg) (hw : Work.message m ∈ (s.object e).work)
      (hcan : s.canDo e (.message m) = true) (hc : (s.object e).created = true)
      (hbody : m.body = .notify .FLUSH_MSGS) : Tells s e (.notify .DO_SCAN)
  | respond (response : List EncodedPtr) (hw : Work.respond response ∈ (s.object e).work) :
      Tells s e (.data response)
  | abort (hw : Work.abort ∈ (s.object e).work) : Tells s e (.notify .ABORT_GC)

theorem Move.tells (h : Move s e t) (he : e.pair.collector = true) {m : Msg}
    (hch : t.channel (!e.host) = s.channel (!e.host) ++ [m]) : Tells s e m.body := by
  cases h with
  | createRemoteObject hnew =>
      obtain rfl : _ = m := by simpa [State.createRemoteObject] using hch
      exact .create
  | send ptrs hu => simp [State.usable, he] at hu
  | notify stage hu hb => simp [State.usable, he] at hu
  | construct hw =>
      rw [State.construct] at hch
      split at hch
      · simp at hch
      · obtain rfl : _ = m := by simpa using hch
        exact .createAck
  | flushed m' hw hcan hc he hbody hb =>
      obtain rfl : _ = m := by simpa [State.remoteNotify, State.endWork] using hch
      exact .doScan m' hw hcan hc hbody
  | flush hw hb =>
      obtain rfl : _ = m := by simpa [State.remoteNotify, State.endWork] using hch
      exact .flush hw
  | respond response hw =>
      obtain rfl : _ = m := by simpa [State.sendData, State.endWork] using hch
      exact .respond response hw
  | abort hw hb =>
      obtain rfl : _ = m := by
        simpa [State.remoteNotify, State.endWork, State.finishup] using hch
      exact .abort hw
  | scan response hw =>
      rw [(scanNext_frame s e response).1] at hch
      simp at hch
  | read m' rest hhead hdst => simp at hch
  | readCreate m' rest hhead hdst hbody hsrc =>
      simp [State.addWork] at hch
  | _ =>
      simp [State.addWork, State.endWork, State.openWith, State.beginScan, State.onNotify,
        State.onRecv, State.finishup, State.swapObjects, State.addObject] at hch

theorem State.canDo_message {m : Msg} (h : s.canDo e (.message m) = true) {w : Work}
    (hw : w ∈ (s.object e).work) : w.locks = false ∧ w ≠ .addObject true := by
  have hall := List.all_eq_true.mp h w hw
  simpa using hall

/-! ## Swaps -/

theorem Made.unmade_of_construct (hm : Made s) (hw : Work.construct ∈ (s.object e).work) :
    s.made e = false := by
  have honce := hm.once e
  have hpos := List.count_pos_iff.mpr hw
  cases hmade : s.made e with
  | false => rfl
  | true =>
      rw [hmade, Bool.toNat_true] at honce
      omega

/-- Scanning is the work that ends in a response or in an abort. -/
def Work.scanning : Work → Bool
  | .scan _ | .respond _ | .abort => true
  | _ => false

theorem scanNext_count_of (s : State) (e : End) (r : List EncodedPtr) {w : Work}
    (hw : w.scanning = false) :
    ((s.scanNext e r).object e).work.count w = (s.object e).work.count w := by
  have hne : ∀ v : Work, v.scanning = true → v ≠ w := by
    rintro v hv rfl
    rw [hv] at hw
    cases hw
  have herase : ((s.object e).work.erase (.scan r)).count w = (s.object e).work.count w :=
    List.count_erase_of_ne (hne _ rfl).symm
  rw [State.scanNext]
  cases (s.collector e).tmp with
  | nil =>
      simp only
      split
      · simp [addWork, endWork, herase, List.count_append, hne .abort rfl]
      · simp [addWork, endWork, herase, List.count_append, hne (.respond r) rfl]
  | cons k rest =>
      simp only
      split
      · simp [addWork, endWork, herase, List.count_append, hne (.scan _) rfl]
      · simp

theorem construct_collector (s : State) (e : End) :
    (s.construct e).collector = s.collector := by
  rw [State.construct]
  split <;> simp

/-- A collector takes the table once, when it is created. -/
def Swaps (s : State) : Prop :=
  ∀ c, (s.object c).work.count .swap + (s.collector c).swapped.toNat =
    if c.pair.collector = true ∧ (s.object c).created = true then 1 else 0

theorem Swaps.move (hs : Swaps s) (hm : Made s) (h : Move s e t) : Swaps t := by
  intro c
  have hold := hs c
  by_cases hc : c = e
  · subst hc
    have herase : ∀ w : Work, w ≠ .swap →
        ((s.object c).work.erase w).count .swap = (s.object c).work.count .swap :=
      fun w hw => List.count_erase_of_ne (Ne.symm hw)
    cases h with
    | createRemoteObject hnew =>
        have hcreated : (s.object c).created = false := by
          by_contra hc
          exact hnew (hm.paired c (hm.made (Or.inl (by simpa using hc))))
        rw [hcreated] at hold
        simp only [Bool.false_eq_true, and_false, if_false, Nat.add_eq_zero_iff] at hold
        simp [State.createRemoteObject, sendMsg_object, hold.2]
    | construct hw =>
        have hrequested : s.object c = .requested := by
          rcases hm.unmade c (hm.unmade_of_construct hw) with hblank | hrequested
          · rw [hblank] at hw
            cases hw
          · exact hrequested
        rw [hrequested] at hold
        have hswapped : (s.collector c).swapped = false := by
          simpa [RemoteObject.requested] using hold
        rw [construct_object, construct_collector, hswapped]
        by_cases he : c.pair.collector = true
        · simp [he]
        · simp [he]
    | openWith m hw hcr hsrc =>
        rw [hcr] at hold
        simp only [Bool.false_eq_true, and_false, if_false, Nat.add_eq_zero_iff] at hold
        by_cases he : c.pair.collector = true
        · simp [State.openWith, he, hold]
        · simp [State.openWith, he, hold]
    | swap hw =>
        have hpos := List.count_pos_iff.mpr hw
        have hswap : ((s.object c).work.erase .swap).count .swap =
            (s.object c).work.count .swap - 1 := List.count_erase_self
        have hle : (s.object c).work.count .swap + (s.collector c).swapped.toNat ≤ 1 := by
          rw [hold]
          split <;> simp
        have hone : (s.object c).work.count .swap + (s.collector c).swapped.toNat = 1 := by omega
        rw [hone] at hold
        simp [State.swapObjects, State.addWork, State.endWork, hswap, List.count_append, ← hold]
        omega
    | scan response hw =>
        rcases (Move.scan c response hw).gen with ⟨-, hswapped⟩ | ⟨-, -, hgen, -⟩
        · rw [scanNext_count_of s c response rfl, hswapped, (scanNext_object s c response).1]
          exact hold
        · rw [(scanNext_frame s c response).2.2.1] at hgen
          omega
    | _ =>
        simpa [State.sendData, State.remoteNotify, State.addWork, State.endWork,
          State.openWith, State.beginScan, State.onNotify, State.onRecv, State.finishup,
          State.swapObjects, State.addObject, sendMsg_object, herase, List.count_append]
          using hold
  · rw [h.object hc, h.collector hc]
    exact hold

/-- Who is about to take the table has not taken it. -/
theorem Swaps.unswapped (hs : Swaps s) (hw : Work.swap ∈ (s.object e).work) :
    (s.collector e).swapped = false := by
  have hone := hs e
  have hpos := List.count_pos_iff.mpr hw
  cases hsw : (s.collector e).swapped with
  | false => rfl
  | true =>
      rw [hsw, Bool.toNat_true] at hone
      split at hone <;> omega

theorem Swaps.fixed (hs : Swaps s) (h : Move s e t) {c : End}
    (hc : (s.collector c).swapped = true) :
    (t.collector c).swapped = true ∧ (t.collector c).gen = (s.collector c).gen := by
  by_cases hce : c = e
  · subst hce
    rcases h.gen with ⟨hgen, hswapped⟩ | ⟨hw, -⟩
    · exact ⟨hswapped.trans hc, hgen⟩
    · rw [hs.unswapped hw] at hc
      cases hc
  · rw [h.collector hce]
    exact ⟨hc, rfl⟩

/-- A collector that has its lock has taken the table. -/
theorem Swaps.swapped (hs : Swaps s) (hcr : (s.object e).created = true)
    (he : e.pair.collector = true) (hw : Work.swap ∉ (s.object e).work) :
    (s.collector e).swapped = true := by
  have hone := hs e
  rw [List.count_eq_zero.mpr hw, if_pos ⟨he, hcr⟩] at hone
  cases hsw : (s.collector e).swapped with
  | true => rfl
  | false =>
      rw [hsw] at hone
      cases hone

/-! ## What was sent before the table was taken -/

/-- Nothing on its way from the host of a collector was sent before it took the table. -/
def Past (s : State) (c : End) : Prop :=
  (s.collector c).swapped = true ∧ ∀ m ∈ s.channel (!c.host), (s.collector c).gen ≤ m.stamp

theorem Past.move {c : End} (hp : Past s c) (hm : Made s) (hg : Gens s) (hs : Swaps s)
    (h : Move s e t) : Past t c := by
  obtain ⟨hswapped, hgen⟩ := hs.fixed h hp.1
  refine ⟨hswapped, fun m hmem => ?_⟩
  rw [hgen]
  rcases h.channel_mem hm hmem with hold | ⟨hx, hm', -⟩
  · exact hp.2 m hold
  · rw [hm'.stamp, ← Bool.not_inj hx]
    exact hg.collector c

/-- How far the two hosts are with flushing: what FLUSH and DO_SCAN messages say. -/
structure Flushes (s : State) : Prop where
  flush : ∀ c, Work.flush ∈ (s.object c).work → (s.collector c).swapped = true
  sent : ∀ x, ∀ m ∈ s.channel x, m.sender.collector = true →
    m.body = .notify .FLUSH_MSGS ∨ m.body = .notify .DO_SCAN →
    (s.collector ⟨!x, m.sender⟩).swapped = true ∧
      (s.collector ⟨!x, m.sender⟩).gen ≤ m.stamp
  scan : ∀ x, ∀ m ∈ s.channel x, m.sender.collector = true → m.body = .notify .DO_SCAN →
    Past s ⟨x, m.sender⟩
  readFlush : ∀ c m, Work.message m ∈ (s.object c).work → c.pair.collector = true →
    m.body = .notify .FLUSH_MSGS → Past s c.peer
  readScan : ∀ c m, Work.message m ∈ (s.object c).work → c.pair.collector = true →
    m.body = .notify .DO_SCAN → Past s c ∧ Past s c.peer
  asked : ∀ c, (s.collector c).asked = true → Past s c ∧ Past s c.peer

/-- A collector flushes after it takes the table. -/
theorem Move.flush_work (h : Move s e t) (hw : Work.flush ∈ (t.object e).work) :
    Work.flush ∈ (s.object e).work ∨ (t.collector e).swapped = true := by
  cases h with
  | swap hw' => exact Or.inr (by simp [State.swapObjects, State.addWork, State.endWork])
  | scan response hw' =>
      left
      rw [← List.count_pos_iff] at hw ⊢
      rw [scanNext_count_of s e response rfl] at hw
      exact hw
  | construct hw' =>
      rw [construct_object] at hw
      split at hw <;> simp at hw
  | createRemoteObject hnew => simp [State.createRemoteObject, sendMsg_object] at hw
  | openWith m hw' hc hsrc =>
      left
      simp only [State.openWith, setObject_object, Function.update_self] at hw
      split at hw
      · exact (List.mem_cons.mp hw).resolve_left (by simp)
      · exact hw
  | send ptrs hu => exact Or.inl (by simpa [State.sendData, sendMsg_object] using hw)
  | notify stage hu hb => exact Or.inl hw
  | _ =>
      left
      have hin := hw
      simp [State.remoteNotify, State.sendData, State.addWork, State.endWork, State.beginScan,
        State.onNotify, State.onRecv, State.finishup, State.addObject, sendMsg_object] at hin
      first | exact hin | exact List.mem_of_mem_erase hin

/-- A message is handled after it is read. -/
theorem Move.message_work (h : Move s e t) {m : Msg}
    (hw : Work.message m ∈ (t.object e).work) :
    Work.message m ∈ (s.object e).work ∨ ∃ rest, s.channel e.host = m :: rest ∧
      m.dstptr = some e.pair ∧ t.channel = Function.update s.channel e.host rest := by
  cases h with
  | read m' rest hch hdst =>
      have hw' : Work.message m ∈ (s.object e).work ∨ m = m' := by simpa using hw
      rcases hw' with hold | rfl
      · exact Or.inl hold
      · exact Or.inr ⟨rest, hch, hdst, rfl⟩
  | scan response hw' =>
      left
      rw [← List.count_pos_iff] at hw ⊢
      rw [scanNext_count_of s e response rfl] at hw
      exact hw
  | construct hw' =>
      rw [construct_object] at hw
      split at hw <;> simp at hw
  | createRemoteObject hnew => simp [State.createRemoteObject, sendMsg_object] at hw
  | openWith m' hw' hc hsrc =>
      left
      simp only [State.openWith, setObject_object, Function.update_self] at hw
      split at hw
      · exact (List.mem_cons.mp hw).resolve_left (by simp)
      · exact hw
  | send ptrs hu => exact Or.inl (by simpa [State.sendData, sendMsg_object] using hw)
  | notify stage hu hb => exact Or.inl hw
  | _ =>
      left
      have hin := hw
      simp [State.remoteNotify, State.sendData, State.addWork, State.endWork, State.beginScan,
        State.onNotify, State.onRecv, State.finishup, State.swapObjects, State.addObject,
        sendMsg_object] at hin
      first | exact hin | exact List.mem_of_mem_erase hin

/-- A collector is asked to scan by a DO_SCAN message. -/
theorem Move.asked (h : Move s e t) (ha : (t.collector e).asked = true) :
    (s.collector e).asked = true ∨ ∃ m, Work.message m ∈ (s.object e).work ∧
      e.pair.collector = true ∧ m.body = .notify .DO_SCAN := by
  cases h with
  | beginScan m hw hcan hc he hbody => exact Or.inr ⟨m, hw, he, hbody⟩
  | construct hw =>
      rw [construct_collector] at ha
      exact Or.inl ha
  | scan response hw =>
      left
      rw [State.scanNext] at ha
      cases htmp : (s.collector e).tmp with
      | nil => simpa [htmp, addWork, endWork] using ha
      | cons k rest =>
          simp only [htmp] at ha
          split at ha
          · simpa using ha
          · simpa using ha
  | _ =>
      left
      simpa [State.createRemoteObject, State.sendData, State.remoteNotify, State.addWork,
        State.endWork, State.openWith, State.onNotify, State.onRecv, State.swapObjects,
        State.finishup, State.addObject] using ha

/-- What is behind a message in its channel was not sent before it. -/
theorem Gens.behind (hg : Gens s) {x : Host} {m : Msg} {rest : List Msg}
    (hch : s.channel x = m :: rest) : ∀ m' ∈ rest, m.stamp ≤ m'.stamp := by
  have hsorted := hg.sorted x
  rw [hch] at hsorted
  exact (List.pairwise_cons.mp hsorted).1

/-- A message to an end is from its peer. -/
theorem Made.sender (hm : Made s) {x : End} {m : Msg} (hin : m ∈ s.channel x.host)
    (hdst : m.dstptr = some x.pair) : m.sender = x.pair := by
  rcases (hm.sent x.host m hin).2 with ⟨_, _, hnone⟩ | ⟨_, _, hsome, _⟩
  · rw [hdst] at hnone
    cases hnone
  · exact (Option.some.inj (hdst.symm.trans hsome)).symm

/-- Once a FLUSH or DO_SCAN message is read, everything sent before it was. -/
theorem Flushes.past (hf : Flushes s) (hm : Made s) (hg : Gens s) (h : Move s e t)
    (he : e.pair.collector = true) {m : Msg} {rest : List Msg}
    (hch : s.channel e.host = m :: rest) (hdst : m.dstptr = some e.pair)
    (ht : t.channel = Function.update s.channel e.host rest)
    (hbody : m.body = .notify .FLUSH_MSGS ∨ m.body = .notify .DO_SCAN) : Past t e.peer := by
  have hin : m ∈ s.channel e.host := by
    rw [hch]
    exact List.mem_cons_self
  have hsender := hm.sender hin hdst
  have hsent := hf.sent e.host m hin (by rw [hsender]; exact he) hbody
  rw [hsender] at hsent
  have hne : e.peer ≠ e := fun heq => by simpa using congrArg End.host heq
  rw [Past, h.collector hne]
  refine ⟨hsent.1, fun m' hm' => ?_⟩
  rw [End.peer_host, Bool.not_not, ht, Function.update_self] at hm'
  exact hsent.2.trans (hg.behind hch m' hm')

theorem Flushes.move (hf : Flushes s) (hm : Made s) (hg : Gens s) (hs : Swaps s)
    (h : Move s e t) : Flushes t where
  flush := by
    intro c hw
    by_cases hc : c = e
    · subst hc
      rcases h.flush_work hw with hold | hnew
      · exact (hs.fixed h (hf.flush c hold)).1
      · exact hnew
    · rw [h.object hc] at hw
      rw [h.collector hc]
      exact hf.flush c hw
  sent := by
    intro x m hin he hbody
    rcases h.channel_mem hm hin with hin | ⟨rfl, hm', hch⟩
    · obtain ⟨hswapped, hgen⟩ := hf.sent x m hin he hbody
      obtain ⟨hswapped', hgen'⟩ := hs.fixed h hswapped
      exact ⟨hswapped', hgen'.le.trans hgen⟩
    · rw [hm'.sender] at he ⊢
      have htells := h.tells he hch
      have hswapped : (s.collector e).swapped = true := by
        rcases hbody with hb | hb <;> rw [hb] at htells
        · cases htells with
          | flush hw => exact hf.flush e hw
        · cases htells with
          | doScan m' hw hcan hc hbody' =>
              refine hs.swapped hc he (fun hswap => ?_)
              cases (State.canDo_message hcan hswap).1
      obtain ⟨hswapped', hgen⟩ := hs.fixed h hswapped
      rw [Bool.not_not]
      refine ⟨hswapped', ?_⟩
      rw [hm'.stamp]
      exact hgen.le.trans (hg.collector e)
  scan := by
    intro x m hin he hbody
    rcases h.channel_mem hm hin with hin | ⟨rfl, hm', hch⟩
    · exact (hf.scan x m hin he hbody).move hm hg hs h
    · rw [hm'.sender] at he ⊢
      have htells := h.tells he hch
      rw [hbody] at htells
      cases htells with
      | doScan m' hw hcan hc hbody' => exact (hf.readFlush e m' hw he hbody').move hm hg hs h
  readFlush := by
    intro c m hw he hbody
    by_cases hc : c = e
    · subst hc
      rcases h.message_work hw with hold | ⟨rest, hch, hdst, ht⟩
      · exact (hf.readFlush c m hold he hbody).move hm hg hs h
      · exact hf.past hm hg h he hch hdst ht (Or.inl hbody)
    · rw [h.object hc] at hw
      exact (hf.readFlush c m hw he hbody).move hm hg hs h
  readScan := by
    intro c m hw he hbody
    by_cases hc : c = e
    · subst hc
      rcases h.message_work hw with hold | ⟨rest, hch, hdst, ht⟩
      · obtain ⟨h1, h2⟩ := hf.readScan c m hold he hbody
        exact ⟨h1.move hm hg hs h, h2.move hm hg hs h⟩
      · refine ⟨Past.move ?_ hm hg hs h, hf.past hm hg h he hch hdst ht (Or.inr hbody)⟩
        have hin : m ∈ s.channel c.host := by
          rw [hch]
          exact List.mem_cons_self
        have hsender := hm.sender hin hdst
        have hpast := hf.scan c.host m hin (by rw [hsender]; exact he) hbody
        rwa [hsender] at hpast
    · rw [h.object hc] at hw
      obtain ⟨h1, h2⟩ := hf.readScan c m hw he hbody
      exact ⟨h1.move hm hg hs h, h2.move hm hg hs h⟩
  asked := by
    intro c ha
    have hold : (s.collector c).asked = true → Past t c ∧ Past t c.peer := by
      intro ha
      obtain ⟨h1, h2⟩ := hf.asked c ha
      exact ⟨h1.move hm hg hs h, h2.move hm hg hs h⟩
    by_cases hc : c = e
    · subst hc
      rcases h.asked ha with ha | ⟨m, hw, he, hbody⟩
      · exact hold ha
      · obtain ⟨h1, h2⟩ := hf.readScan c m hw he hbody
        exact ⟨h1.move hm hg hs h, h2.move hm hg hs h⟩
    · rw [h.collector hc] at ha
      exact hold ha

theorem Swaps.initial : Swaps State.initial := by
  intro c
  simp [State.initial, RemoteObject.blank, Collector.blank]

theorem Flushes.initial : Flushes State.initial where
  flush := fun _ hw => by cases hw
  sent := fun _ _ hm => by cases hm
  scan := fun _ _ hm => by cases hm
  readFlush := fun _ _ hw => by cases hw
  readScan := fun _ _ hw => by cases hw
  asked := fun _ ha => by cases ha

end PbDistributedGC
