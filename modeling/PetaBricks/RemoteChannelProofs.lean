import Mathlib.Algebra.Group.Nat.Defs
import Mathlib.Logic.Function.Basic
import Mathlib.Data.List.Basic
import PetaBricks.TransitionProofs

/-! # Remote channels — headers on one socket, payloads on others

    `RemoteHost::sendMsg` and `RemoteHost::recv`, in one direction between two
    hosts.  A sender writes its header under the control lock and, before it lets
    go of that lock, takes the lock of the data channel it announced; a receiver
    does the same with the read locks.  So the payloads stand on a channel in the
    order of the headers that announce them.

    A thread's place in `sendMsg` or `recv` is modelled by what the lock it holds
    remembers.  A message carries as a ghost the bytes its sender passed in
    (`payload`); the code sees `chan` and `len` only, and `len` is a `uint32_t`.
    The sockets are byte streams; `readAll` waits until enough bytes are there. -/

namespace PbRemoteChannel

open PbTransition

/-- `REMOTEHOST_DATACHANS`. -/
def dataChans : Nat := 4

/-- The fields of `GeneralMessage` that `sendMsg` sets, and the bytes its caller
    passed. -/
structure Msg (B : Type) where
  chan : Nat
  len : Nat
  payload : List B
  deriving DecidableEq, Repr

/-- A thread inside `sendMsg`, its header written; `buffers` are left to
    write. -/
structure Sending (B : Type) where
  tid : Nat
  chan : Nat
  buffers : List (List B)

/-- The test `len>0` of `sendMsg`: on the first buffer. -/
def Sending.writes {B : Type} (w : Sending B) : Bool :=
  match w.buffers with
  | [] => false
  | b :: _ => decide (0 < b.length)

/-- A thread inside `recv`, its header read. -/
structure Receiving (B : Type) where
  tid : Nat
  msg : Msg B

/-- A finished `recv`: what `readAll` gave for the message. -/
structure Reception (B : Type) where
  tid : Nat
  msg : Msg B
  bytes : List B

/-- One direction of a connection.  A lock is `some` when it is held. -/
structure State (B : Type) where
  lastchan : Nat
  control : List (Msg B)
  data : Nat → List B
  controlWritemu : Option (Sending B)
  dataWritemu : Nat → Option (Sending B)
  controlReadmu : Option (Receiving B)
  dataReadmu : Nat → Option (Receiving B)
  sent : List (Msg B)
  received : List (Reception B)

/-- The steps of `sendMsg` and `recv`. -/
inductive Act (B : Type) where
  | sendMsg (tid : Nat) (data : List B) (data2 : Option (List B))
  | handWrite
  | write (c : Nat)
  | recv (tid : Nat)
  | handRead
  | read (c : Nat)

variable {B : Type}

/-- `pickChannel()`. -/
def pickChannel (lastchan : Nat) : Nat := (lastchan + 2) % dataChans

/-- The header of `sendMsg(msg, data, len)`, or with `data2` of the variant that
    takes two buffers. -/
def header (lastchan : Nat) (data : List B) (data2 : Option (List B)) :
    Msg B where
  chan := if 0 < data.length then pickChannel lastchan else 0
  len := (data.length + (data2.getD []).length) % 2 ^ 32
  payload := data ++ data2.getD []

/-- Lock the control socket and write the header. -/
def stepSendMsg (s : State B) (tid : Nat) (data : List B)
    (data2 : Option (List B)) : Option (State B) :=
  match s.controlWritemu with
  | some _ => none
  | none =>
      let m := header s.lastchan data data2
      some { s with
        lastchan := if 0 < data.length then m.chan else s.lastchan
        control := s.control ++ [m]
        controlWritemu := some ⟨tid, m.chan, data :: data2.toList⟩
        sent := s.sent ++ [m] }

/-- With a non-empty first buffer take the data lock; give the control lock
    back. -/
def stepHandWrite (s : State B) : Option (State B) :=
  match s.controlWritemu with
  | none => none
  | some w =>
      if w.writes = true then
        match s.dataWritemu w.chan with
        | some _ => none
        | none =>
            some { s with
              controlWritemu := none
              dataWritemu := Function.update s.dataWritemu w.chan (some w) }
      else some { s with controlWritemu := none }

/-- Write the next buffer, or give the data lock back. -/
def stepWrite (s : State B) (c : Nat) : Option (State B) :=
  match s.dataWritemu c with
  | none => none
  | some w =>
      match w.buffers with
      | [] =>
          some { s with dataWritemu := Function.update s.dataWritemu c none }
      | b :: rest =>
          some { s with
            data := Function.update s.data c (s.data c ++ b)
            dataWritemu := Function.update s.dataWritemu c
              (some { w with buffers := rest }) }

/-- Lock the control socket and read a header. -/
def stepRecv (s : State B) (tid : Nat) : Option (State B) :=
  match s.controlReadmu, s.control with
  | none, m :: rest =>
      some { s with control := rest, controlReadmu := some ⟨tid, m⟩ }
  | _, _ => none

/-- When the header announces bytes take the data lock; give the control lock
    back. -/
def stepHandRead (s : State B) : Option (State B) :=
  match s.controlReadmu with
  | none => none
  | some r =>
      if 0 < r.msg.len then
        match s.dataReadmu r.msg.chan with
        | some _ => none
        | none =>
            some { s with
              controlReadmu := none
              dataReadmu := Function.update s.dataReadmu r.msg.chan (some r) }
      else
        some { s with
          controlReadmu := none
          received := s.received ++ [⟨r.tid, r.msg, []⟩] }

/-- Read the announced number of bytes and give the data lock back. -/
def stepRead (s : State B) (c : Nat) : Option (State B) :=
  match s.dataReadmu c with
  | none => none
  | some r =>
      if r.msg.len ≤ (s.data c).length then
        some { s with
          data := Function.update s.data c ((s.data c).drop r.msg.len)
          dataReadmu := Function.update s.dataReadmu c none
          received := s.received ++
            [⟨r.tid, r.msg, (s.data c).take r.msg.len⟩] }
      else none

/-- One step of some thread. -/
def step (s : State B) : Act B → Option (State B)
  | .sendMsg tid data data2 => stepSendMsg s tid data data2
  | .handWrite => stepHandWrite s
  | .write c => stepWrite s c
  | .recv tid => stepRecv s tid
  | .handRead => stepHandRead s
  | .read c => stepRead s c

/-- A connection nobody has used. -/
def fresh : State B where
  lastchan := 0
  control := []
  data := fun _ => []
  controlWritemu := none
  dataWritemu := fun _ => none
  controlReadmu := none
  dataReadmu := fun _ => none
  sent := []
  received := []

/-- The connection. -/
def system : System (State B) (Act B) where
  init := fun s => s = fresh
  next := step

/-- The sends for which header and payload agree: a second buffer only after a
    non-empty first one, and a length that fits `DataLen`. -/
def fits : Act B → Bool
  | .sendMsg _ data data2 =>
      (!data.isEmpty || (data2.getD []).isEmpty) &&
        decide (data.length + (data2.getD []).length < 2 ^ 32)
  | _ => true

/-- The connection used with such sends only. -/
def fittingSystem : System (State B) (Act B) :=
  system.restrict fun _ a => fits a = true

/-! ## What stands on a channel -/

/-- The messages with a payload on channel `c`. -/
def on (c : Nat) (ms : List (Msg B)) : List (Msg B) :=
  ms.filter fun m => m.chan == c && decide (0 < m.len)

/-- The messages announced on channel `c` whose bytes no receiver has read. -/
def State.unread (s : State B) (c : Nat) : List (Msg B) :=
  (s.dataReadmu c).toList.map Receiving.msg ++
    on c (s.controlReadmu.toList.map Receiving.msg ++ s.control)

/-- What a sender that holds the control lock will write on channel `c`. -/
def Sending.coming (c : Nat) (w : Sending B) : List B :=
  if w.chan = c ∧ w.writes = true then w.buffers.flatten
  else []

/-- The bytes announced on channel `c` and not yet written. -/
def State.unwritten (s : State B) (c : Nat) : List B :=
  (s.dataWritemu c).toList.flatMap (fun w => w.buffers.flatten) ++
    s.controlWritemu.toList.flatMap (Sending.coming c)

/-- A message whose header tells the truth. -/
def Msg.Honest (m : Msg B) : Prop :=
  m.len = m.payload.length ∧ m.chan < dataChans

/-- **PAIRING**: what is asked of every state. -/
structure Paired (s : State B) : Prop where
  /-- Every header tells the truth. -/
  honest : ∀ m ∈ s.sent, m.Honest
  /-- Every finished `recv` got the bytes its message's sender passed. -/
  exact : ∀ r ∈ s.received, r.bytes = r.msg.payload
  /-- The bytes on a channel, then those to be written, are the payloads
      announced there and not read, in order. -/
  accounted : ∀ c, s.data c ++ s.unwritten c = (s.unread c).flatMap Msg.payload
  /-- Each message with a payload is read once, in the order of sending. -/
  once : ∀ c, on c s.sent = on c (s.received.map Reception.msg) ++ s.unread c

/-- What the threads inside `recv` hold. -/
structure Held (s : State B) : Prop where
  reader : ∀ c r, s.dataReadmu c = some r →
    r.msg.chan = c ∧ 0 < r.msg.len ∧ r.msg ∈ s.sent
  control : ∀ m ∈ s.controlReadmu.toList.map Receiving.msg ++ s.control,
    m ∈ s.sent

theorem on_append (c : Nat) (ms ns : List (Msg B)) :
    on c (ms ++ ns) = on c ms ++ on c ns := List.filter_append _ _

theorem on_of_pos {c : Nat} {m : Msg B} (hc : m.chan = c) (hl : 0 < m.len) :
    on c [m] = [m] := by
  simp [on, hc, hl]

theorem on_of_ne {c : Nat} {m : Msg B} (hc : m.chan ≠ c) : on c [m] = [] := by
  simp [on, hc]

theorem on_of_zero {c : Nat} {m : Msg B} (hl : ¬0 < m.len) : on c [m] = [] := by
  simp [on, hl]

/-! ## The sender -/

section Header

variable (last : Nat) {data : List B} {data2 : Option (List B)} {tid : Nat}

theorem fits_iff : fits (.sendMsg tid data data2) = true ↔
    (data = [] → data2.getD [] = []) ∧
      data.length + (data2.getD []).length < 2 ^ 32 := by
  simp only [fits, Bool.and_eq_true, Bool.or_eq_true, Bool.not_eq_true',
    List.isEmpty_eq_false_iff, List.isEmpty_iff, decide_eq_true_eq]
  exact and_congr_left fun _ => ⟨fun h hd => h.resolve_left (fun hne => hne hd),
    fun h => (em (data = [])).elim (fun hd => Or.inr (h hd)) Or.inl⟩

theorem header_honest
    (hf : fits (.sendMsg tid data data2) = true) :
    (header last data data2).Honest := by
  obtain ⟨-, hlen⟩ := fits_iff.mp hf
  refine ⟨?_, ?_⟩
  · simp only [header, List.length_append]
    exact Nat.mod_eq_of_lt hlen
  · simp only [header, pickChannel]
    split
    · exact Nat.mod_lt _ (by decide)
    · decide

/-- What the sender will write is what its header announces. -/
theorem coming_header (c : Nat) (hf : fits (.sendMsg tid data data2) = true) :
    Sending.coming c
        ⟨tid, (header last data data2).chan, data :: data2.toList⟩
      = (on c [header last data data2]).flatMap Msg.payload := by
  obtain ⟨hempty, hlen⟩ := fits_iff.mp hf
  by_cases hpos : 0 < data.length
  · have hl : 0 < (header last data data2).len := by
      simp only [header]
      rw [Nat.mod_eq_of_lt hlen]
      omega
    by_cases hc : (header last data data2).chan = c
    · rw [on_of_pos hc hl, Sending.coming,
        if_pos ⟨hc, by simpa [Sending.writes] using hpos⟩]
      cases data2 <;> simp [header]
    · rw [on_of_ne hc, Sending.coming, if_neg (fun h => hc h.1)]
      rfl
  · have hd : data = [] := List.length_eq_zero_iff.mp (by omega)
    have hl : ¬0 < (header last data data2).len := by
      simp [header, hempty hd, hd]
    rw [on_of_zero hl, Sending.coming,
      if_neg (fun h => hpos (by simpa [Sending.writes] using h.2))]
    rfl

end Header

/-! ## Steps -/

/-- The invariant. -/
def Inv (s : State B) : Prop := Paired s ∧ Held s

section Steps

variable {s t : State B}

theorem inv_sendMsg {tid : Nat} {data : List B} {data2 : Option (List B)}
    (h : Inv s) (hf : fits (.sendMsg tid data data2) = true)
    (hs : stepSendMsg s tid data data2 = some t) : Inv t := by
  obtain ⟨hp, hh⟩ := h
  unfold stepSendMsg at hs
  cases hw : s.controlWritemu with
  | some w => simp only [hw] at hs; exact nomatch hs
  | none =>
      simp only [hw] at hs
      cases hs
      have hcoming := fun c => coming_header s.lastchan c hf
      have hmem : ∀ m ∈ s.sent, m ∈ s.sent ++ [header s.lastchan data data2] :=
        fun m hm => List.mem_append_left _ hm
      have hunread : ∀ c, on c (s.controlReadmu.toList.map Receiving.msg ++
            (s.control ++ [header s.lastchan data data2]))
          = on c (s.controlReadmu.toList.map Receiving.msg ++ s.control) ++
            on c [header s.lastchan data data2] := fun c => by
        rw [← List.append_assoc, on_append]
      refine ⟨⟨?_, hp.exact, ?_, ?_⟩, ⟨?_, ?_⟩⟩
      · intro m hm
        rcases List.mem_append.mp hm with hold | hnew
        · exact hp.honest m hold
        · rw [List.mem_singleton.mp hnew]
          exact header_honest s.lastchan hf
      · intro c
        have hacc := hp.accounted c
        simp only [State.unwritten, State.unread, hw] at hacc ⊢
        rw [hunread c, ← List.append_assoc (_ : List (Msg B)),
          List.flatMap_append, ← hacc, ← hcoming c]
        simp
      · intro c
        have honce := hp.once c
        simp only [State.unread] at honce ⊢
        rw [on_append, honce, hunread c]
        simp only [List.append_assoc]
      · intro c r hr
        obtain ⟨h1, h2, h3⟩ := hh.reader c r hr
        exact ⟨h1, h2, hmem _ h3⟩
      · intro m hm
        rw [← List.append_assoc] at hm
        rcases List.mem_append.mp hm with hold | hnew
        · exact hmem m (hh.control m hold)
        · exact List.mem_append_right _ hnew

theorem inv_handWrite (h : Inv s) (hs : stepHandWrite s = some t) : Inv t := by
  obtain ⟨hp, hh⟩ := h
  unfold stepHandWrite at hs
  cases hw : s.controlWritemu with
  | none => simp only [hw] at hs; exact nomatch hs
  | some w =>
      simp only [hw] at hs
      by_cases hpos : w.writes = true
      · rw [if_pos hpos] at hs
        cases hd : s.dataWritemu w.chan with
        | some w' => simp only [hd] at hs; exact nomatch hs
        | none =>
            simp only [hd] at hs
            cases hs
            refine ⟨⟨hp.honest, hp.exact, fun c => ?_, hp.once⟩, hh.reader,
              hh.control⟩
            have hacc := hp.accounted c
            simp only [State.unwritten, State.unread, hw] at hacc ⊢
            rw [← hacc]
            by_cases hc : w.chan = c
            · subst hc
              simp [Sending.coming, hd, hpos]
            · simp [Sending.coming, hc, Function.update_of_ne (Ne.symm hc)]
      · rw [if_neg hpos] at hs
        cases hs
        refine ⟨⟨hp.honest, hp.exact, fun c => ?_, hp.once⟩, hh.reader,
          hh.control⟩
        have hacc := hp.accounted c
        simp only [State.unwritten, State.unread, hw] at hacc ⊢
        rw [← hacc]
        simp [Sending.coming, hpos]

theorem inv_write {c : Nat} (h : Inv s) (hs : stepWrite s c = some t) :
    Inv t := by
  obtain ⟨hp, hh⟩ := h
  unfold stepWrite at hs
  cases hw : s.dataWritemu c with
  | none => simp only [hw] at hs; exact nomatch hs
  | some w =>
      obtain ⟨tid, chan, buffers⟩ := w
      simp only [hw] at hs
      cases buffers with
      | nil =>
          cases hs
          refine ⟨⟨hp.honest, hp.exact, fun d => ?_, hp.once⟩, hh.reader,
            hh.control⟩
          have hacc := hp.accounted d
          simp only [State.unwritten, State.unread] at hacc ⊢
          rw [← hacc]
          by_cases hd : d = c
          · subst hd; simp [hw]
          · simp [Function.update_of_ne hd]
      | cons b rest =>
          cases hs
          refine ⟨⟨hp.honest, hp.exact, fun d => ?_, hp.once⟩, hh.reader,
            hh.control⟩
          have hacc := hp.accounted d
          simp only [State.unwritten, State.unread] at hacc ⊢
          rw [← hacc]
          by_cases hd : d = c
          · subst hd; simp [hw]
          · simp [Function.update_of_ne hd]

/-! ## The receiver -/

theorem inv_recv {tid : Nat} (h : Inv s) (hs : stepRecv s tid = some t) :
    Inv t := by
  obtain ⟨hp, hh⟩ := h
  unfold stepRecv at hs
  cases hr : s.controlReadmu with
  | some r => simp only [hr] at hs; exact nomatch hs
  | none =>
      cases hq : s.control with
      | nil => simp only [hr, hq] at hs; exact nomatch hs
      | cons m rest =>
          simp only [hr, hq] at hs
          cases hs
          have hsame : ∀ c, State.unread { s with
              control := rest, controlReadmu := some ⟨tid, m⟩ } c
              = s.unread c := fun c => by
            simp [State.unread, hr, hq]
          refine ⟨⟨hp.honest, hp.exact, fun c => ?_, fun c => ?_⟩,
            hh.reader, ?_⟩
          · rw [hsame c]; exact hp.accounted c
          · rw [hsame c]; exact hp.once c
          · intro m' hm'
            refine hh.control m' ?_
            simpa [hr, hq] using hm'

theorem inv_handRead (h : Inv s) (hs : stepHandRead s = some t) : Inv t := by
  obtain ⟨hp, hh⟩ := h
  unfold stepHandRead at hs
  cases hr : s.controlReadmu with
  | none => simp only [hr] at hs; exact nomatch hs
  | some r =>
      simp only [hr] at hs
      have hsent : r.msg ∈ s.sent := hh.control r.msg (by simp [hr])
      have hcontrol : ∀ m ∈ s.control, m ∈ s.sent := fun m hm =>
        hh.control m (List.mem_append_right _ hm)
      by_cases hpos : 0 < r.msg.len
      · rw [if_pos hpos] at hs
        cases hd : s.dataReadmu r.msg.chan with
        | some r' => simp only [hd] at hs; exact nomatch hs
        | none =>
            simp only [hd] at hs
            cases hs
            have hsame : ∀ c, State.unread { s with
                controlReadmu := none
                dataReadmu := Function.update s.dataReadmu r.msg.chan
                  (some r) } c = s.unread c := fun c => by
              by_cases hc : c = r.msg.chan
              · subst hc
                simp [State.unread, hr, hd, on, hpos]
              · simp [State.unread, hr, Function.update_of_ne hc, on,
                  Ne.symm hc]
            refine ⟨⟨hp.honest, hp.exact, fun c => ?_, fun c => ?_⟩,
              fun c r' hr' => ?_, ?_⟩
            · rw [hsame c]; exact hp.accounted c
            · rw [hsame c]; exact hp.once c
            · by_cases hc : c = r.msg.chan
              · subst hc
                have hrr : r = r' := by simpa using hr'
                exact hrr ▸ ⟨rfl, hpos, hsent⟩
              · exact hh.reader c r' (by
                  simpa [Function.update_of_ne hc] using hr')
            · simpa using hcontrol
      · rw [if_neg hpos] at hs
        cases hs
        have hsame : ∀ c, State.unread { s with
            controlReadmu := none
            received := s.received ++ [⟨r.tid, r.msg, []⟩] } c
            = s.unread c := fun c => by
          simp [State.unread, hr, on, hpos]
        refine ⟨⟨hp.honest, fun r' hr' => ?_, fun c => ?_, fun c => ?_⟩,
          hh.reader, by simpa using hcontrol⟩
        · rcases List.mem_append.mp hr' with hold | hnew
          · exact hp.exact r' hold
          · rw [List.mem_singleton.mp hnew]
            obtain ⟨hlen, -⟩ := hp.honest r.msg hsent
            have hnil : r.msg.payload = [] :=
              List.length_eq_zero_iff.mp (by omega)
            exact hnil.symm
        · rw [hsame c]; exact hp.accounted c
        · rw [hsame c, List.map_append, on_append]
          simp only [List.map_cons, List.map_nil, on_of_zero hpos,
            List.append_nil]
          exact hp.once c

theorem inv_read {c : Nat} (h : Inv s) (hs : stepRead s c = some t) :
    Inv t := by
  obtain ⟨hp, hh⟩ := h
  unfold stepRead at hs
  cases hr : s.dataReadmu c with
  | none => simp only [hr] at hs; exact nomatch hs
  | some r =>
      simp only [hr] at hs
      by_cases hle : r.msg.len ≤ (s.data c).length
      · rw [if_pos hle] at hs
        cases hs
        obtain ⟨hchan, hpos, hsent⟩ := hh.reader c r hr
        obtain ⟨hlen, -⟩ := hp.honest r.msg hsent
        -- the announced bytes are the first ones on the channel
        have hacc := hp.accounted c
        have hhead : s.unread c = r.msg ::
            on c (s.controlReadmu.toList.map Receiving.msg ++ s.control) := by
          simp [State.unread, hr]
        rw [hhead, List.flatMap_cons] at hacc
        have htake : (s.data c).take r.msg.len = r.msg.payload := by
          have h1 := congrArg (List.take r.msg.len) hacc
          rw [List.take_append_of_le_length hle, hlen,
            List.take_left'  rfl] at h1
          rw [hlen]; exact h1
        have hdrop : (s.data c).drop r.msg.len ++ s.unwritten c
            = (on c (s.controlReadmu.toList.map Receiving.msg ++
                s.control)).flatMap Msg.payload := by
          have h1 := congrArg (List.drop r.msg.len) hacc
          rw [List.drop_append_of_le_length hle, hlen,
            List.drop_left' rfl] at h1
          rw [hlen]; exact h1
        refine ⟨⟨hp.honest, fun r' hr' => ?_, fun d => ?_, fun d => ?_⟩,
          fun d r' hr' => ?_, hh.control⟩
        · rcases List.mem_append.mp hr' with hold | hnew
          · exact hp.exact r' hold
          · rw [List.mem_singleton.mp hnew]; exact htake
        · by_cases hd : d = c
          · subst hd
            simpa [State.unwritten, State.unread] using hdrop
          · have hold := hp.accounted d
            simpa [State.unwritten, State.unread, Function.update_of_ne hd]
              using hold
        · have honce := hp.once d
          by_cases hd : d = c
          · subst hd
            rw [hhead] at honce
            rw [List.map_append, on_append, honce]
            simp [State.unread, on_of_pos hchan hpos]
          · rw [List.map_append, on_append, honce]
            simp [State.unread, Function.update_of_ne hd,
              on_of_ne (hchan ▸ Ne.symm hd)]
        · by_cases hd : d = c
          · subst hd; simp at hr'
          · exact hh.reader d r' (by
              simpa [Function.update_of_ne hd] using hr')
      · rw [if_neg hle] at hs; exact nomatch hs

theorem inv_step {a : Act B} (h : Inv s) (hf : fits a = true)
    (hs : step s a = some t) : Inv t := by
  cases a with
  | sendMsg tid data data2 => exact inv_sendMsg h hf hs
  | handWrite => exact inv_handWrite h hs
  | write c => exact inv_write h hs
  | recv tid => exact inv_recv h hs
  | handRead => exact inv_handRead h hs
  | read c => exact inv_read h hs

theorem inv_fresh : Inv (fresh : State B) := by
  refine ⟨⟨?_, ?_, ?_, ?_⟩, ⟨?_, ?_⟩⟩
  · intro m hm; exact nomatch hm
  · intro r hr; exact nomatch hr
  · intro c; rfl
  · intro c; rfl
  · intro c r hr; exact nomatch hr
  · intro m hm; exact nomatch hm

end Steps

/-! ## Runs -/

theorem inv_of_reachable {s : State B} (h : Reachable fittingSystem s) :
    Inv s :=
  Reachable.invariant_restrict Inv h
    (fun s hs => by rw [show s = fresh from hs]; exact inv_fresh)
    (fun _ _ _ hs hok hn => inv_step hs hok hn)

/-- No header is in flight and no thread is inside `recv`. -/
def State.Quiet (s : State B) : Prop :=
  s.control = [] ∧ s.controlReadmu = none ∧ ∀ c, s.dataReadmu c = none

/-- When all headers were picked up and acted on, no byte is left on any channel
    and every message was received. -/
theorem Paired.nothing_left {s : State B} (h : Paired s) (hq : s.Quiet)
    (c : Nat) :
    s.data c = [] ∧ on c s.sent = on c (s.received.map Reception.msg) := by
  obtain ⟨hcontrol, hcr, hdr⟩ := hq
  have hun : s.unread c = [] := by simp [State.unread, hcr, hdr, hcontrol, on]
  have hacc := h.accounted c
  have honce := h.once c
  rw [hun] at hacc honce
  exact ⟨(List.append_eq_nil_iff.mp hacc).1, by rw [honce, List.append_nil]⟩

/-- A receiver finds its bytes as soon as the senders have written theirs. -/
theorem Paired.can_read {s : State B} (h : Paired s) (hh : Held s) {c : Nat}
    {r : Receiving B} (hr : s.dataReadmu c = some r)
    (hw : s.unwritten c = []) : r.msg.len ≤ (s.data c).length := by
  obtain ⟨-, -, hsent⟩ := hh.reader c r hr
  obtain ⟨hlen, -⟩ := h.honest r.msg hsent
  have hacc := h.accounted c
  rw [hw, List.append_nil] at hacc
  rw [hacc, hlen]
  simp [State.unread, hr]

/-- Two messages, the second from the two-buffer variant, through two
    receivers. -/
def pairedRun : List (Act Nat) :=
  [.sendMsg 0 [1, 2] none, .handWrite, .sendMsg 1 [3] (some [4, 5]), .recv 8,
    .handRead, .handWrite, .write 0, .write 2, .recv 9, .read 2, .handRead,
    .write 0, .read 0]

/-- The two-buffer variant with an empty first buffer announces bytes on channel
    0 and writes none; the next payload there is read in their place. -/
def emptyFirstRun : List (Act Nat) :=
  [.sendMsg 0 [] (some [7]), .handWrite, .sendMsg 0 [1] none, .handWrite,
    .write 2, .write 2, .sendMsg 0 [9] none, .handWrite, .write 0, .recv 1,
    .handRead, .read 0]

/-- A send that does not fit is followed by a state in which a header lies or
    bytes are announced that nobody will write. -/
theorem not_paired_of_unfit {s t : State B} {tid : Nat} {data : List B}
    {data2 : Option (List B)} (h : Paired s)
    (hf : fits (.sendMsg tid data data2) = false)
    (hs : step s (.sendMsg tid data data2) = some t) : ¬ Paired t := by
  intro ht
  have hs' : stepSendMsg s tid data data2 = some t := hs
  unfold stepSendMsg at hs'
  cases hw : s.controlWritemu with
  | some w => simp only [hw] at hs'; exact nomatch hs'
  | none =>
      simp only [hw] at hs'
      cases hs'
      obtain ⟨hlen, -⟩ := ht.honest (header s.lastchan data data2)
        (List.mem_append_right _ List.mem_cons_self)
      have hlt : data.length + (data2.getD []).length < 2 ^ 32 := by
        simp only [header, List.length_append] at hlen
        omega
      -- so the first buffer is empty and the second is not
      have hnot : ¬(data = [] → data2.getD [] = []) := fun himp => by
        rw [fits_iff.mpr ⟨himp, hlt⟩] at hf
        exact nomatch hf
      obtain ⟨hd, hd2⟩ := Classical.not_imp.mp hnot
      have hpos : 0 < (header s.lastchan data data2).len := by
        rw [hlen]
        simpa [header, hd] using List.length_pos_iff.mpr hd2
      have hon : on 0 [header s.lastchan data data2]
          = [header s.lastchan data data2] :=
        on_of_pos (by simp [header, hd]) hpos
      have hold := h.accounted 0
      have hnew := ht.accounted 0
      simp only [State.unwritten, State.unread, hw] at hold hnew
      rw [← List.append_assoc (_ : List (Msg B)), on_append, hon] at hnew
      have hcome : Sending.coming 0 ⟨tid, (header s.lastchan data data2).chan,
          data :: data2.toList⟩ = [] := by
        simp [Sending.coming, Sending.writes, hd]
      have hlold := congrArg List.length hold
      have hlnew := congrArg List.length hnew
      simp only [Option.toList_some, Option.toList_none, List.flatMap_cons,
        List.flatMap_nil, hcome, List.flatMap_append, List.length_append,
        List.length_nil, ← hlen] at hlold hlnew
      omega

end PbRemoteChannel
