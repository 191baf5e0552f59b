import PetaBricks.SetupModel

/-! # Handshakes — both sides end up with the same channels

    The connections between two hosts form a row: the control connection, then the data
    connections in order.  The side that connected knows which is which; the side that
    accepted got them in some order and sorts them by the hello messages. -/

namespace PbSetup

open PbEventual PbSocketNet RemoteHost
open PbRemoteChannel (dataChans)

variable {resolve : Addr → Option Nat} {a b k self other : Nat} {h : RemoteHost}
  {e e' : Machine} {myRoll roll : Nat} {m : Mem Nat Message}

/-- Connections from `b` to `a`, by number. -/
def line (b a k i : Nat) : Conn Nat := ⟨b, a, k + i⟩

def row (b a k n : Nat) : List (Conn Nat) := (List.range n).map (line b a k)

theorem mem_row {n : Nat} {c : Conn Nat} : c ∈ row b a k n ↔ ∃ i < n, line b a k i = c := by
  simp [row]

theorem row_succ (b a k n : Nat) : row b a k (n + 1) = line b a k 0 :: row b a (k + 1) n := by
  rw [row, List.range_succ_eq_map, List.map_cons, List.map_map, row]
  congr 1
  refine List.map_congr_left (fun i _ => ?_)
  simp [line]
  omega

theorem row_nodup (b a k n : Nat) : (row b a k n).Nodup := by
  refine List.Nodup.map (fun i j hij => ?_) List.nodup_range
  simpa [line] using hij

theorem row_length (b a k n : Nat) : (row b a k n).length = n := by simp [row]

theorem row_drop {n i : Nat} (hi : i < n) :
    (row b a k n).drop i = line b a k i :: (row b a k n).drop (i + 1) := by
  rw [List.drop_eq_getElem_cons (by rwa [row_length])]
  simp [row]

theorem row_eq_flatMap {B : Type} (n : Nat) (f : Conn Nat → B) :
    (row b a k n).map f = (List.range n).flatMap (fun i => [f (line b a k i)]) := by
  rw [row, List.map_map, List.map_eq_flatMap]
  rfl

theorem peer_client (b a k i : Nat) : (line b a k i).peer b = some a := if_pos rfl

theorem peer_server (hab : b ≠ a) (k i : Nat) : (line b a k i).peer a = some b :=
  (if_neg hab).trans (if_pos rfl)

/-- The hello message of a machine on a connection of a row. -/
def greet (e : Machine) (myRoll k : Nat) (c : Conn Nat) : Message :=
  .hello (if c.number = k then helloControl e myRoll
    else helloData e myRoll (c.number - (k + 1)))

@[simp] theorem greet_control :
    greet e myRoll k (line b a k 0) = .hello (helloControl e myRoll) := by
  simp [greet, line]

@[simp] theorem greet_data (i : Nat) :
    greet e myRoll k (line b a (k + 1) i) = .hello (helloData e myRoll i) := by
  have hne : k + 1 + i ≠ k := by omega
  simp [greet, line, hne]

/-- The host has the connections of a row where they belong. -/
structure Wired (h : RemoteHost) (b a k : Nat) : Prop where
  control : h.control = some (line b a k 0)
  data : ∀ i < dataChans, h.data i = some (line b a (k + 1) i)

/-- What a host knows after the hello message of the other. -/
def met (e : Machine) (myRoll : Nat) (e' : Machine) (roll : Nat) (h : RemoteHost) :
    RemoteHost :=
  { h with
    id := e'.self
    remotePort := e'.port
    connectName := e'.host
    shouldGc := gcWins e myRoll e'.self roll }

/-! ## Messages -/

theorem exec_jassert {p : Bool} (hp : p = true) : Exec resolve self (jassert p) m [] () m := by
  subst hp
  exact .done () m

theorem exec_writeAll {s : Socket} {c : Conn Nat} {q : Nat} (x : Message) (hs : s = some c)
    (hq : c.peer self = some q) :
    Exec resolve self (writeAll s x) m [(q, .message c x)] () m := by
  subst hs
  exact .send hq (.done () m)

theorem exec_readHello {s : Socket} {c : Conn Nat} {x : HelloMessage} {rest : List Message}
    (hs : s = some c) (hin : m.inbox c = .hello x :: rest) :
    Exec resolve self (readHello s) m [] x (m.read c rest) := by
  subst hs
  exact .recv hin (.done x _)

theorem exec_readSetup {s : Socket} {c : Conn Nat} {x : SetupMessage} {rest : List Message}
    (hs : s = some c) (hin : m.inbox c = .setup x :: rest) :
    Exec resolve self (readSetup s) m [] x (m.read c rest) := by
  subst hs
  exact .recv hin (.done x _)

theorem exec_readAck {s : Socket} {c : Conn Nat} {x : SetupAckMessage} {rest : List Message}
    (hs : s = some c) (hin : m.inbox c = .ack x :: rest) :
    Exec resolve self (readAck s) m [] x (m.read c rest) := by
  subst hs
  exact .recv hin (.done x _)

/-! ## Connecting -/

/-- The data sockets set to a row. -/
def withData (h : RemoteHost) (b a k n : Nat) : RemoteHost :=
  { h with data := fun i => if i < n then some (line b a k i) else h.data i }

theorem withData_succ (h : RemoteHost) (b a k n : Nat) :
    { withData h b a k n with
      data := Function.update (withData h b a k n).data n (some (line b a k n)) } =
    withData h b a k (n + 1) := by
  have hdata : Function.update (withData h b a k n).data n (some (line b a k n)) =
      (withData h b a k (n + 1)).data := by
    funext i
    by_cases hi : i = n
    · subst hi
      simp [withData]
    · have hlt : i ≤ n ↔ i < n := by omega
      simp [withData, hi, hlt]
  rw [hdata]
  rfl

theorem exec_connectData {addr : Addr} (hr : resolve addr = some a) (h : RemoteHost)
    (box : Conn Nat → List Message) :
    Exec resolve b (h.connectData addr) ⟨k, box⟩ (calls a (row b a k dataChans))
      (withData h b a k dataChans) ⟨k + dataChans, box⟩ := by
  have hzero : withData h b a k 0 = h := rfl
  rw [calls, row_eq_flatMap]
  unfold connectData
  rw [← hzero]
  refine Exec.loop (fun i => withData h b a k i) (fun i => ⟨k + i, box⟩) _ dataChans ?_
  intro i _
  rw [← withData_succ]
  exact .connect hr (.done _ _)

theorem Wired.sendHello (hw : Wired h b a k) (e : Machine) (myRoll : Nat)
    (hpeer : ∀ c ∈ row b a k (dataChans + 1), c.peer self = some other) :
    Exec resolve self (RemoteHost.sendHello e myRoll h) m
      (letters other (greet e myRoll k) (row b a k (dataChans + 1))) () m := by
  rw [row_succ] at hpeer ⊢
  unfold RemoteHost.sendHello
  simp only [Prog.bind_eq, hw.control, writeAll, Prog.bind_send, Prog.bind_done]
  rw [letters, List.map_cons, row_eq_flatMap, greet_control]
  refine .send (hpeer _ List.mem_cons_self) ?_
  refine Exec.loop (fun _ => ()) (fun _ => m) _ dataChans (fun i hi => ?_)
  simp only [hw.data i hi, greet_data]
  refine .send (hpeer _ (List.mem_cons_of_mem _ (mem_row.mpr ⟨i, hi, rfl⟩))) ?_
  exact .done _ _

theorem Wired.sendHello_done (hw : Wired h b a k) (e : Machine) (myRoll : Nat)
    (hpeer : ∀ c ∈ row b a k (dataChans + 1), c.peer self = some other) (r : RemoteHost) :
    Exec resolve self ((RemoteHost.sendHello e myRoll h).bind fun _ => .done r) m
      (letters other (greet e myRoll k) (row b a k (dataChans + 1))) r m := by
  rw [← List.append_nil (letters other _ _)]
  exact (hw.sendHello e myRoll hpeer).bind (.done r m)

/-- The messages of a row, read in order. -/
def waiting (num : Nat) (l : List (Conn Nat)) (f : Conn Nat → Message) : Mem Nat Message :=
  ⟨num, pending l f⟩

theorem waiting_head (num : Nat) (c : Conn Nat) (l : List (Conn Nat)) (f : Conn Nat → Message) :
    (waiting num (c :: l) f).inbox c = [f c] := pending_head c l f

theorem waiting_read {num : Nat} {c : Conn Nat} {l : List (Conn Nat)} (hc : c ∉ l)
    (f : Conn Nat → Message) : (waiting num (c :: l) f).read c [] = waiting num l f :=
  congrArg (Mem.mk num) (pending_read hc f)

theorem Wired.recvHello (hw : Wired h b a k) (hid : e'.self ≠ e.self) (num : Nat) :
    Exec resolve self (RemoteHost.recvHello e myRoll h)
      (waiting num (row b a k (dataChans + 1)) (greet e' roll k)) []
      (met e myRoll e' roll h) (waiting num [] (greet e' roll k)) := by
  have hnd := row_nodup b a k (dataChans + 1)
  rw [row_succ] at hnd ⊢
  have hhead := waiting_head num (line b a k 0) (row b a (k + 1) dataChans) (greet e' roll k)
  rw [greet_control] at hhead
  unfold RemoteHost.recvHello
  simp only [Prog.bind_eq, Prog.pure_eq]
  refine (exec_readHello hw.control hhead).seq ?_
  refine (exec_jassert (by simp [helloControl, hid])).seq ?_
  rw [waiting_read (List.nodup_cons.mp hnd).1]
  refine Exec.seq (r := ()) ?_ (.done _ _)
  have hend : (row b a (k + 1) dataChans).drop dataChans = [] :=
    List.drop_eq_nil_of_le (row_length _ _ _ _).le
  rw [← hend]
  refine Exec.loop_silent (fun _ => ())
    (fun i => waiting num ((row b a (k + 1) dataChans).drop i) (greet e' roll k)) dataChans ?_
  intro i hi
  have hcut := row_drop (b := b) (a := a) (k := k + 1) hi
  have hnd' := (List.drop_sublist i _).nodup (row_nodup b a (k + 1) dataChans)
  rw [hcut] at hnd'
  have hin := waiting_head num (line b a (k + 1) i)
    ((row b a (k + 1) dataChans).drop (i + 1)) (greet e' roll k)
  rw [← hcut, greet_data] at hin
  refine (exec_readHello (hw.data i hi) hin).seq ?_
  rw [hcut, waiting_read (List.nodup_cons.mp hnd').1]
  exact exec_jassert (by simp [helloData, helloControl])

/-! ## Accepting -/

/-- What a host makes of the hello message on a connection. -/
def note (e : Machine) (myRoll : Nat) (e' : Machine) (roll k : Nat) (h : RemoteHost)
    (c : Conn Nat) : RemoteHost :=
  if c.number = k then
    { h with
      id := e'.self
      control := some c
      connectName := e'.host
      remotePort := e'.port
      shouldGc := gcWins e myRoll e'.self roll }
  else { h with
    id := e'.self
    data := Function.update h.data (c.number - (k + 1)) (some c) }

theorem note_control (h : RemoteHost) :
    note e myRoll e' roll k h (line b a k 0) =
      { met e myRoll e' roll h with control := some (line b a k 0) } := if_pos rfl

theorem note_data (h : RemoteHost) (j : Nat) :
    note e myRoll e' roll k h (line b a (k + 1) j) =
      { h with
        id := e'.self
        data := Function.update h.data j (some (line b a (k + 1) j)) } := by
  have hnum : (line b a (k + 1) j).number ≠ k := by
    simp only [line]
    omega
  have hpos : (line b a (k + 1) j).number - (k + 1) = j := Nat.add_sub_cancel_left _ _
  rw [note, if_neg hnum, hpos]

theorem exec_setId {i : Nat} (hid : e'.self ≠ e.self) (hknown : i ≠ 0 → h.id = e'.self) :
    Exec resolve self (setId e h i e'.self) m [] { h with id := e'.self } m := by
  unfold setId
  by_cases hi : i = 0
  · rw [if_pos hi]
    exact (exec_jassert (decide_eq_true hid)).seq (.done _ _)
  · rw [if_neg hi]
    refine (exec_jassert (decide_eq_true (hknown hi).symm)).seq ?_
    rw [← hknown hi]
    exact .done _ _

theorem exec_sortControl (s : Socket) :
    Exec resolve self (sortSocket e myRoll h s (helloControl e' roll)) m []
      { h with
        control := s
        connectName := e'.host
        remotePort := e'.port
        shouldGc := gcWins e myRoll h.id roll } m := by
  have htype : (helloControl e' roll).type = .HELLO_CONTROL := rfl
  rw [sortSocket, if_pos htype]
  exact (exec_jassert (decide_eq_true rfl)).seq (.done _ _)

theorem exec_sortData {j : Nat} (hj : j < dataChans) (s : Socket) :
    Exec resolve self (sortSocket e myRoll h s (helloData e' roll j)) m []
      { h with data := Function.update h.data j s } m := by
  have hne : (helloData e' roll j).type ≠ .HELLO_CONTROL := nofun
  have htype : (helloData e' roll j).type = .HELLO_DATA := rfl
  rw [sortSocket, if_neg hne, if_pos htype]
  exact (exec_jassert (decide_eq_true hj)).seq (.done _ _)

theorem exec_sortHello {i : Nat} {c : Conn Nat} {l : List (Conn Nat)} (hid : e'.self ≠ e.self)
    (hs : h.scratchSockets i = some c) (hc : c ∈ row b a k (dataChans + 1)) (hnd : c ∉ l)
    (hknown : i ≠ 0 → h.id = e'.self) (num : Nat) :
    Exec resolve self (sortHello e myRoll h i)
      (waiting num (c :: l) (greet e' roll k)) []
      (note e myRoll e' roll k h c) (waiting num l (greet e' roll k)) := by
  have hin := waiting_head num c l (greet e' roll k)
  rw [row_succ, List.mem_cons] at hc
  rcases hc with rfl | hc
  · rw [greet_control] at hin
    refine (exec_readHello hs hin).seq ((exec_setId hid hknown).seq ?_)
    rw [waiting_read hnd, note_control, ← hs]
    exact exec_sortControl _
  · obtain ⟨j, hj, rfl⟩ := mem_row.mp hc
    rw [greet_data] at hin
    refine (exec_readHello hs hin).seq ((exec_setId hid hknown).seq ?_)
    rw [waiting_read hnd, note_data, ← hs]
    exact exec_sortData hj _

theorem note_scratch (c : Conn Nat) :
    (note e myRoll e' roll k h c).scratchSockets = h.scratchSockets := by
  unfold note
  split
  · rfl
  · rfl

theorem note_id (c : Conn Nat) : (note e myRoll e' roll k h c).id = e'.self := by
  unfold note
  split
  · rfl
  · rfl

theorem note_lastchan (c : Conn Nat) : (note e myRoll e' roll k h c).lastchan = h.lastchan := by
  unfold note
  split
  · rfl
  · rfl

/-- What a host makes of all hello messages. -/
def noteAll (e : Machine) (myRoll : Nat) (e' : Machine) (roll k : Nat) (h : RemoteHost)
    (l : List (Conn Nat)) : RemoteHost :=
  l.foldl (note e myRoll e' roll k) h

theorem noteAll_scratch (l : List (Conn Nat)) :
    (noteAll e myRoll e' roll k h l).scratchSockets = h.scratchSockets := by
  induction l generalizing h with
  | nil => rfl
  | cons c l ih => exact (ih (h := note e myRoll e' roll k h c)).trans (note_scratch c)

theorem noteAll_lastchan (l : List (Conn Nat)) :
    (noteAll e myRoll e' roll k h l).lastchan = h.lastchan := by
  induction l generalizing h with
  | nil => rfl
  | cons c l ih => exact (ih (h := note e myRoll e' roll k h c)).trans (note_lastchan c)

theorem noteAll_append (l : List (Conn Nat)) (c : Conn Nat) :
    noteAll e myRoll e' roll k h (l ++ [c]) =
      note e myRoll e' roll k (noteAll e myRoll e' roll k h l) c := by
  rw [noteAll, List.foldl_append]
  rfl

/-- What the host knows after some of the messages. -/
structure Noted (e : Machine) (myRoll : Nat) (e' : Machine) (roll b a k : Nat)
    (l : List (Conn Nat)) (h : RemoteHost) : Prop where
  control : line b a k 0 ∈ l → h.control = some (line b a k 0) ∧
    h = met e myRoll e' roll h
  data : ∀ i, line b a (k + 1) i ∈ l → h.data i = some (line b a (k + 1) i)

theorem Noted.snoc {l : List (Conn Nat)} (hn : Noted e myRoll e' roll b a k l h)
    {c : Conn Nat} (hc : c ∈ row b a k (dataChans + 1)) :
    Noted e myRoll e' roll b a k (l ++ [c]) (note e myRoll e' roll k h c) := by
  have hne : ∀ j, line b a k 0 ≠ line b a (k + 1) j := by
    intro j hj
    have := congrArg Conn.number hj
    simp only [line] at this
    omega
  rw [row_succ, List.mem_cons] at hc
  rcases hc with rfl | hc
  · rw [note_control]
    refine ⟨fun _ => ⟨rfl, rfl⟩, fun i hi => ?_⟩
    rcases List.mem_append.mp hi with hi | hi
    · exact hn.data i hi
    · exact absurd (List.mem_singleton.mp hi).symm (hne i)
  · obtain ⟨j, hj, rfl⟩ := mem_row.mp hc
    rw [note_data]
    refine ⟨fun h0 => ?_, fun i hi => ?_⟩
    · rcases List.mem_append.mp h0 with h0 | h0
      · refine ⟨(hn.control h0).1, ?_⟩
        have hmet := (hn.control h0).2
        rw [hmet]
        rfl
      · exact absurd (List.mem_singleton.mp h0) (hne j)
    · show Function.update h.data j _ i = _
      by_cases hij : i = j
      · subst hij
        exact Function.update_self _ _ _
      · rw [Function.update_of_ne hij]
        refine hn.data i ((List.mem_append.mp hi).resolve_right (fun h1 => hij ?_))
        have := congrArg Conn.number (List.mem_singleton.mp h1)
        simp only [line] at this
        omega

theorem noted (l : List (Conn Nat)) (hl : ∀ c ∈ l, c ∈ row b a k (dataChans + 1)) :
    Noted e myRoll e' roll b a k l (noteAll e myRoll e' roll k h l) := by
  induction l using List.reverseRecOn with
  | nil => exact ⟨fun h0 => absurd h0 List.not_mem_nil, fun i hi => absurd hi List.not_mem_nil⟩
  | append_singleton l c ih =>
      rw [noteAll_append]
      exact (ih (fun d hd => hl d (List.mem_append_left _ hd))).snoc
        (hl c (List.mem_append_right _ (List.mem_singleton_self c)))

/-- The loop that reads the hello messages. -/
theorem exec_sortAll {l : List (Conn Nat)} (hl : l.Perm (row b a k (dataChans + 1)))
    (hid : e'.self ≠ e.self)
    (hs : ∀ i (hi : i < l.length), h.scratchSockets i = some l[i]) (num : Nat) :
    Exec resolve self (Prog.loop (dataChans + 1) h (sortHello e myRoll))
      (waiting num l (greet e' roll k)) [] (noteAll e myRoll e' roll k h l)
      (waiting num [] (greet e' roll k)) := by
  have hlen : l.length = dataChans + 1 := hl.length_eq.trans (row_length _ _ _ _)
  have hnd : l.Nodup := hl.nodup_iff.mpr (row_nodup _ _ _ _)
  have hloop : Exec resolve self (Prog.loop l.length h (sortHello e myRoll))
      (waiting num l (greet e' roll k)) [] (noteAll e myRoll e' roll k h (l.take l.length))
      (waiting num (l.drop l.length) (greet e' roll k)) :=
    Exec.loop_silent (fun i => noteAll e myRoll e' roll k h (l.take i))
      (fun i => waiting num (l.drop i) (greet e' roll k)) l.length ?_
  · rw [List.take_length, List.drop_length, hlen] at hloop
    exact hloop
  · intro i hi
    have hcut := List.drop_eq_getElem_cons hi
    have hnd' := (List.drop_sublist i l).nodup hnd
    rw [hcut] at hnd' ⊢
    rw [List.take_succ_eq_append_getElem hi, noteAll_append]
    refine exec_sortHello hid ?_ (hl.mem_iff.mp (List.getElem_mem hi))
      (List.nodup_cons.mp hnd').1 (fun hi0 => ?_) num
    · rw [noteAll_scratch]
      exact hs i hi
    · -- the message before told who the other is
      obtain ⟨j, rfl⟩ := Nat.exists_eq_succ_of_ne_zero hi0
      have hj : j < l.length := Nat.lt_of_succ_lt hi
      rw [List.take_succ_eq_append_getElem hj, noteAll_append]
      exact note_id _

/-- **SORTED**: in whatever order the connections were accepted, each becomes the channel it
    is on the other side. -/
theorem exec_accept_handshake {l : List (Conn Nat)}
    (hl : l.Perm (row b a k (dataChans + 1))) (hab : b ≠ a) (hid : e'.self ≠ e.self)
    (hs : ∀ i (hi : i < l.length), h.scratchSockets i = some l[i]) (num : Nat) :
    ∃ h', Wired h' b a k ∧ h' = met e myRoll e' roll h' ∧ h'.lastchan = h.lastchan ∧
      Exec resolve a (handshake e myRoll false h) (waiting num l (greet e' roll k))
        (letters b (greet e myRoll k) (row b a k (dataChans + 1))) h'
        (waiting num [] (greet e' roll k)) := by
  have hn : Noted e myRoll e' roll b a k l (noteAll e myRoll e' roll k h l) :=
    noted l (fun c hc => hl.mem_iff.mp hc)
  have hall : ∀ {c}, c ∈ row b a k (dataChans + 1) → c ∈ l := fun hc => hl.mem_iff.mpr hc
  have hzero : line b a k 0 ∈ l := hall (mem_row.mpr ⟨0, Nat.succ_pos _, rfl⟩)
  have hw : Wired (noteAll e myRoll e' roll k h l) b a k := by
    refine ⟨(hn.control hzero).1, fun i hi => hn.data i (hall ?_)⟩
    rw [row_succ]
    exact List.mem_cons_of_mem _ (mem_row.mpr ⟨i, hi, rfl⟩)
  refine ⟨_, hw, (hn.control hzero).2, noteAll_lastchan l, ?_⟩
  have hpeer : ∀ c ∈ row b a k (dataChans + 1), c.peer a = some b := by
    intro c hc
    obtain ⟨i, -, rfl⟩ := mem_row.mp hc
    exact peer_server hab k i
  exact (exec_sortAll hl hid hs num).seq (hw.sendHello_done e myRoll hpeer _)

/-! ## Both sides -/

/-- The part of `connect` that does not wait. -/
def dial (e : Machine) (myRoll : Nat) (addr : Addr) (h : RemoteHost) : Code RemoteHost :=
  (Prog.connect addr fun c => .done { h with control := some c }).bind fun h =>
    (h.connectData addr).bind fun h =>
      (sendHello e myRoll h).bind fun _ => .done { h with lastchan := 0 }

theorem connect_eq (addr : Addr) (h : RemoteHost) :
    h.connect e myRoll addr = (dial e myRoll addr h).bind (recvHello e myRoll) := by
  simp [RemoteHost.connect, dial, handshake, sendHello]

/-- The part of `connectMasterData` that does not wait. -/
def dialMaster (e : Machine) (myRoll : Nat) (addr : Addr) (h : RemoteHost) :
    Code RemoteHost :=
  (h.connectData addr).bind fun h =>
    (sendHello e myRoll h).bind fun _ => .done { h with lastchan := 0 }

theorem connectMasterData_eq (addr : Addr) (h : RemoteHost) :
    h.connectMasterData e myRoll addr =
      (dialMaster e myRoll addr h).bind (recvHello e myRoll) := by
  simp [RemoteHost.connectMasterData, dialMaster, handshake, sendHello]

theorem exec_dialMaster {addr : Addr} (hr : resolve addr = some a)
    (hc : h.control = some (line b a k 0)) (box : Conn Nat → List Message) :
    ∃ h', Wired h' b a k ∧ h'.lastchan = 0 ∧
      Exec resolve b (dialMaster e myRoll addr h) ⟨k + 1, box⟩
        (calls a (row b a (k + 1) dataChans) ++
          letters a (greet e myRoll k) (row b a k (dataChans + 1)))
        h' ⟨k + (dataChans + 1), box⟩ := by
  have hw : Wired (withData h b a (k + 1) dataChans) b a k :=
    ⟨hc, fun i hi => if_pos hi⟩
  refine ⟨{ withData h b a (k + 1) dataChans with lastchan := 0 }, ⟨hw.1, hw.2⟩, rfl, ?_⟩
  have hnum : k + 1 + dataChans = k + (dataChans + 1) := by omega
  have hcall := exec_connectData hr h (b := b) (k := k + 1) box
  rw [hnum] at hcall
  refine hcall.bind ?_
  have hpeer : ∀ c ∈ row b a k (dataChans + 1), c.peer b = some a := by
    intro c hc
    obtain ⟨i, -, rfl⟩ := mem_row.mp hc
    exact peer_client b a k i
  exact hw.sendHello_done e myRoll hpeer _

theorem exec_dial {addr : Addr} (hr : resolve addr = some a) (h : RemoteHost)
    (box : Conn Nat → List Message) :
    ∃ h', Wired h' b a k ∧ h'.lastchan = 0 ∧
      Exec resolve b (dial e myRoll addr h) ⟨k, box⟩
        (calls a (row b a k (dataChans + 1)) ++
          letters a (greet e myRoll k) (row b a k (dataChans + 1)))
        h' ⟨k + (dataChans + 1), box⟩ := by
  obtain ⟨h', hw, hlast, he⟩ := exec_dialMaster hr
    (h := { h with control := some (line b a k 0) }) rfl box
  refine ⟨h', hw, hlast, ?_⟩
  rw [row_succ] at he ⊢
  exact .connect hr he

/-! ### Accepting -/

/-- The scratch sockets from `first` on are the given connections. -/
def scratched (h : RemoteHost) (first : Nat) (l : List (Conn Nat)) : RemoteHost :=
  gather (fun h i c =>
    { h with scratchSockets := Function.update h.scratchSockets (first + i) (some c) }) h l

theorem scratched_append (first : Nat) (l : List (Conn Nat)) (c : Conn Nat) :
    scratched h first (l ++ [c]) = { scratched h first l with
      scratchSockets := Function.update (scratched h first l).scratchSockets
        (first + l.length) (some c) } :=
  gather_append _ _ _ _

theorem scratched_of_lt {first i : Nat} (hi : i < first) (l : List (Conn Nat)) :
    (scratched h first l).scratchSockets i = h.scratchSockets i := by
  induction l using List.reverseRecOn with
  | nil => rfl
  | append_singleton l c ih =>
      have hne : i ≠ first + l.length := by omega
      rw [scratched_append]
      exact (Function.update_of_ne hne _ _).trans ih

theorem scratched_get (first : Nat) (l : List (Conn Nat)) (i : Nat) (hi : i < l.length) :
    (scratched h first l).scratchSockets (first + i) = some l[i] := by
  induction l using List.reverseRecOn with
  | nil => cases hi
  | append_singleton l c ih =>
      rw [scratched_append]
      by_cases hil : i = l.length
      · subst hil
        simp
      · have hlt : i < l.length := by
          rw [List.length_append] at hi
          have := List.length_singleton (a := c)
          omega
        have hne : first + i ≠ first + l.length := by omega
        rw [List.getElem_append_left hlt]
        exact (Function.update_of_ne hne _ _).trans (ih hlt)

/-- What two hosts know of each other when they have met. -/
structure Met (e : Machine) (myRoll : Nat) (e' : Machine) (roll b a k : Nat)
    (h h' : RemoteHost) : Prop where
  wired : Wired h b a k
  wired' : Wired h' b a k
  knows : h = met e myRoll e' roll h
  knows' : h' = met e' roll e myRoll h'
  lastchan : h.lastchan = 1
  lastchan' : h'.lastchan = 0

variable {start s : Net Nat Addr Message RemoteHostDB}

/-- Before the first reply is there, the host that connected waits. -/
theorem Wired.blocked {hb : RemoteHost} (hw : Wired hb b a k) (num : Nat)
    (kb : RemoteHost → Code RemoteHostDB) (bl : Multiset (Conn Nat)) :
    (⟨(RemoteHost.recvHello e myRoll hb).bind kb, ⟨num, fun _ => []⟩, bl⟩ :
      Node Nat Addr Message RemoteHostDB).Blocked resolve self := by
  unfold RemoteHost.recvHello
  simp only [Prog.bind_eq, hw.control, readHello, readAll, Prog.bind_recv]
  exact Node.blocked_recv rfl bl

/-- **MEETING**: `b` has been asked to connect to `a`, `a` to accept, and all others wait.  Then
    the two meet, and nothing else happens. -/
theorem meet_leads {x : Code RemoteHost} {first : Nat} {cs : List (Conn Nat)}
    {hb : RemoteHost} {na nb nb' : Nat} {ka : RemoteHost → Code RemoteHostDB}
    {kb : RemoteHost → Code RemoteHostDB}
    (hab : b ≠ a) (hid : e.self ≠ e'.self)
    (hw : Wired hb b a k) (hlast : hb.lastchan = 0)
    (hx : Exec resolve b x ⟨nb, fun _ => []⟩
      (calls a cs ++ letters a (greet e' roll k) (row b a k (dataChans + 1))) hb
      ⟨nb', fun _ => []⟩)
    (hscratch : ∀ l : List (Conn Nat), l.Perm cs →
      ∃ l' : List (Conn Nat), l'.Perm (row b a k (dataChans + 1)) ∧
        ∀ i (hi : i < l'.length), (scratched h first l).scratchSockets i = some l'[i])
    (hsa : s a = ⟨(h.acceptScratch first cs.length).bind fun h =>
        (handshake e myRoll false { h with lastchan := 1 }).bind ka, ⟨na, fun _ => []⟩, 0⟩)
    (hsb : s b = ⟨x.bind fun h => (recvHello e' roll h).bind kb, ⟨nb, fun _ => []⟩, 0⟩)
    (hothers : ∀ p, p ≠ a → p ≠ b → (s p).Blocked resolve p) :
    Leads (network resolve start) s (fun u => ∃ h₁ h₂,
      Met e myRoll e' roll b a k h₁ h₂ ∧ u a = ⟨ka h₁, ⟨na, fun _ => []⟩, 0⟩ ∧
      u b = ⟨kb h₂, ⟨nb', fun _ => []⟩, 0⟩ ∧ ∀ p, p ≠ a → p ≠ b → u p = s p) := by
  set R := row b a k (dataChans + 1) with hR
  have hRnd : R.Nodup := row_nodup _ _ _ _
  have hto : ∀ d ∈ (calls a cs ++ letters a (greet e' roll k) R), d.1 = a := by
    intro d hd
    rcases List.mem_append.mp hd with hd | hd
    · obtain ⟨c, -, rfl⟩ := List.mem_map.mp hd
      rfl
    · obtain ⟨c, -, rfl⟩ := List.mem_map.mp hd
      rfl
  -- b runs up to the first reply
  refine (hx.leads (fun d hd => by rw [hto d hd]; exact hab.symm) hsb).trans ?_
  rintro u₁ rfl
  set out := calls a cs ++ letters a (greet e' roll k) R with hout
  have hother₁ : ∀ p, p ≠ a → p ≠ b →
      s.after b ⟨(recvHello e' roll hb).bind kb, ⟨nb', fun _ => []⟩, 0⟩ out p = s p := by
    intro p hpa hpb
    rw [Net.after_of_ne _ _ hpb, Node.addAll_of_ne (fun d hd => by rw [hto d hd]; exact hpa.symm)]
  have ha₁ : s.after b ⟨(recvHello e' roll hb).bind kb, ⟨nb', fun _ => []⟩, 0⟩ out a =
      ⟨(h.acceptScratch first cs.length).bind fun h =>
        (handshake e myRoll false { h with lastchan := 1 }).bind ka,
        waiting na R (greet e' roll k), cs⟩ := by
    rw [Net.after_of_ne _ _ hab.symm, hsa, hout, Node.addAll_append, Node.addAll_calls,
      Node.addAll_letters_idle rfl hRnd]
    simp [waiting]
  -- a accepts
  refine (accept_all_leads (Multiset.coe_card cs) ha₁ (fun p hp => ?_)).trans ?_
  · by_cases hpb : p = b
    · subst hpb
      rw [Net.after_self]
      exact hw.blocked nb' kb 0
    · rw [hother₁ p hp hpb]
      exact hothers p hp hpb
  rintro u₂ ⟨l, hl, ha₂, hother₂⟩
  obtain ⟨l', hl', hget⟩ := hscratch l (Multiset.coe_eq_coe.mp hl)
  -- a sorts the sockets and replies
  obtain ⟨h₁, hw₁, hknows₁, hlast₁, he₁⟩ := exec_accept_handshake
    (h := { scratched h first l with lastchan := 1 }) hl' hab hid.symm hget na
  rw [waiting, pending_perm (fun c => hl'.mem_iff)] at he₁
  refine (he₁.leads (fun d hd => ?_) ha₂).trans ?_
  · obtain ⟨c, -, rfl⟩ := List.mem_map.mp hd
    exact hab
  rintro u₃ rfl
  have hb₃ : u₂.after a ⟨ka h₁, waiting na [] (greet e' roll k), 0⟩
      (letters b (greet e myRoll k) R) b =
      ⟨(recvHello e' roll hb).bind kb, waiting nb' R (greet e myRoll k), 0⟩ := by
    rw [Net.after_of_ne _ _ hab, hother₂ b hab, Net.after_self,
      Node.addAll_letters_idle rfl hRnd]
    rfl
  -- b reads the replies
  have he₂ : Exec resolve b (recvHello e' roll hb) (waiting nb' R (greet e myRoll k)) []
      (met e' roll e myRoll hb) (waiting nb' [] (greet e myRoll k)) := hw.recvHello hid nb'
  refine (he₂.leads (fun d hd => absurd hd List.not_mem_nil) hb₃).mono ?_
  rintro u₄ rfl
  refine ⟨h₁, met e' roll e myRoll hb, ⟨hw₁, ⟨hw.1, hw.2⟩, hknows₁, rfl, hlast₁, hlast⟩,
    ?_, ?_, fun p hpa hpb => ?_⟩
  · rw [Net.after_of_ne _ _ hab.symm, Net.after_self, waiting, pending_nil]
    rfl
  · rw [Net.after_self, waiting, pending_nil]
  · have hquiet : ∀ d ∈ letters b (greet e myRoll k) R, d.1 ≠ p := by
      intro d hd
      obtain ⟨c, -, rfl⟩ := List.mem_map.mp hd
      exact hpb.symm
    rw [Net.after_of_ne _ _ hpb, Net.after_of_ne _ _ hpa, Node.addAll_of_ne hquiet,
      hother₂ p hpa, hother₁ p hpa hpb]
    rfl

end PbSetup
