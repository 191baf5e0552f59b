import PetaBricks.SetupHandshakeProofs

/-! # Connection set-up — links, and the slaves that are told to make them

    What the two ends of a link have in common (`Joined`), and how the slaves serve the
    three messages of the master: each time, from a network where everybody waits, to
    one where everybody waits and the master has its acknowledgements. -/

namespace PbSetup

open PbEventual PbSocketNet RemoteHost
open PbRemoteChannel (dataChans pickChannel)

/-! ## Links -/

/-- A connection that has its ends at two machines. -/
def Between (c : Conn Nat) (p q : Nat) : Prop := c.peer p = some q ∧ c.peer q = some p

/-- The host object tells who the other machine is and where it listens. -/
structure Knows (w : World) (q : Nat) (h : RemoteHost) : Prop where
  id : h.id = (w.machine q).self
  connectName : h.connectName = (w.machine q).host
  remotePort : h.remotePort = (w.machine q).port

/-- The host object `h` of machine `p` and the host object `h'` of machine `q` are the two
    ends of one link. -/
structure Joined (w : World) (p q : Nat) (h h' : RemoteHost) : Prop where
  control : ∃ c, Between c p q ∧ h.control = some c ∧ h'.control = some c
  data : ∀ i < dataChans, ∃ c, Between c p q ∧ h.data i = some c ∧ h'.data i = some c
  apart : ∀ i < dataChans, h.data i ≠ h.control ∧
    ∀ j < dataChans, h.data i = h.data j → i = j
  knows : Knows w q h
  knows' : Knows w p h'
  gc : h.shouldGc = !h'.shouldGc
  chans : ∀ i j, pickChannel^[i + 1] h.lastchan ≠ pickChannel^[j + 1] h'.lastchan

variable {w : World} {F a b k p q : Nat} {h h' : RemoteHost}

theorem Joined.symm (hj : Joined w p q h h') : Joined w q p h' h := by
  obtain ⟨c, hc, h1, h2⟩ := hj.control
  refine ⟨⟨c, hc.symm, h2, h1⟩, fun i hi => ?_, fun i hi => ⟨?_, fun j hji heq => ?_⟩,
    hj.knows', hj.knows, ?_, fun i j => (hj.chans j i).symm⟩
  · obtain ⟨d, hd, h3, h4⟩ := hj.data i hi
    exact ⟨d, hd.symm, h4, h3⟩
  · obtain ⟨d, -, h3, h4⟩ := hj.data i hi
    have hne := (hj.apart i hi).1
    rw [h3, h1] at hne
    rw [h4, h2]
    exact hne
  · obtain ⟨d, -, h3, h4⟩ := hj.data i hi
    obtain ⟨d', -, h5, h6⟩ := hj.data j hji
    rw [h4, h6] at heq
    refine (hj.apart i hi).2 j hji ?_
    rw [h3, h5, heq]
  · rw [hj.gc, Bool.not_not]

theorem HostPid.lt_not_lt {x y : HostPid} (hne : x ≠ y) : x.lt y = !y.lt x := by
  obtain ⟨i, n⟩ := x
  obtain ⟨j, m⟩ := y
  unfold HostPid.lt
  by_cases hij : i = j
  · subst hij
    have hnm : n ≠ m := fun heq => hne (by rw [heq])
    simp only [if_true]
    by_cases hlt : n < m
    · simp [hlt, Int.le_of_lt hlt]
    · simp only [hlt, decide_false, Bool.false_eq, Bool.not_eq_false', decide_eq_true_eq]
      omega
  · rw [if_neg hij, if_neg (Ne.symm hij)]
    by_cases hlt : i < j
    · simp [hlt, Int.le_of_lt hlt]
    · simp only [hlt, decide_false, Bool.false_eq, Bool.not_eq_false', decide_eq_true_eq]
      omega

/-- One of the two collects. -/
theorem gcWins_not {e e' : Machine} (hne : e.self ≠ e'.self) (myRoll roll : Nat) :
    gcWins e myRoll e'.self roll = !gcWins e' roll e.self myRoll := by
  unfold gcWins
  by_cases hr : myRoll = roll
  · subst hr
    simpa using HostPid.lt_not_lt hne
  · rw [if_pos hr, if_pos (Ne.symm hr)]
    by_cases hlt : myRoll < roll
    · simp [hlt, Nat.le_of_lt hlt]
    · simp only [hlt, decide_false, Bool.false_eq, Bool.not_eq_false', decide_eq_true_eq]
      omega

/-- A host keeps to the even channels or to the odd ones. -/
theorem pickChannel_parity (c n : Nat) : pickChannel^[n] c % 2 = c % 2 := by
  induction n generalizing c with
  | zero => rfl
  | succ n ih =>
      rw [Function.iterate_succ_apply, ih, pickChannel, dataChans]
      omega

theorem Met.joined {r r' : Nat} (hm : Met (w.machine a) r (w.machine b) r' b a k h h')
    (hab : b ≠ a) (hid : (w.machine a).self ≠ (w.machine b).self) : Joined w a b h h' := by
  have hbet : ∀ j, Between (line b a k j) a b :=
    fun j => ⟨peer_server hab k j, peer_client b a k j⟩
  have hbet' : ∀ j, Between (line b a (k + 1) j) a b :=
    fun j => ⟨peer_server hab (k + 1) j, peer_client b a (k + 1) j⟩
  refine ⟨⟨_, hbet 0, hm.wired.control, hm.wired'.control⟩,
    fun i hi => ⟨_, hbet' i, hm.wired.data i hi, hm.wired'.data i hi⟩,
    fun i hi => ⟨?_, fun j hj heq => ?_⟩, ?_, ?_, ?_, fun i j heq => ?_⟩
  · rw [hm.wired.data i hi, hm.wired.control]
    intro heq
    have := congrArg Conn.number (Option.some.inj heq)
    simp only [line] at this
    omega
  · rw [hm.wired.data i hi, hm.wired.data j hj] at heq
    have := congrArg Conn.number (Option.some.inj heq)
    simp only [line] at this
    omega
  · rw [hm.knows]
    exact ⟨rfl, rfl, rfl⟩
  · rw [hm.knows']
    exact ⟨rfl, rfl, rfl⟩
  · rw [hm.knows, hm.knows']
    exact gcWins_not hid r r'
  · have h1 := pickChannel_parity h.lastchan (i + 1)
    have h2 := pickChannel_parity h'.lastchan (j + 1)
    rw [heq, h2, hm.lastchan, hm.lastchan'] at h1
    cases h1

/-! ## Slaves -/

/-- The control connection of a slave to the master. -/
def ctl (p : Nat) : Conn Nat := line p 0 0 0

theorem ctl_peer (p : Nat) : (ctl p).peer p = some 0 := peer_client p 0 0 0

theorem ctl_peer_master (hp : p ≠ 0) : (ctl p).peer 0 = some p := peer_server hp 0 0

theorem ctl_inj (h : ctl p = ctl q) : p = q := congrArg Conn.client h

/-- Host 0 of a database is the master. -/
def Led (db : RemoteHostDB) (p : Nat) : Prop :=
  ∃ this, db.hosts[0]? = some this ∧ this.control = some (ctl p)

/-- What `setupLoop` does when a message has been handled. -/
def answer (e : Machine) (fuel : Nat) (msg : SetupMessage) (db : RemoteHostDB) :
    Code RemoteHostDB :=
  (db.host 0).bind fun this =>
    (writeAll this.control (.ack ⟨.SETUP_ACK⟩)).bind fun _ =>
      if msg.type = .SETUP_END then .done db else db.setupLoop e fuel

variable {db : RemoteHostDB} {e : Machine} {fuel num : Nat} {msg : SetupMessage}
  {resolve : Addr → Option Nat} {start s : Net Nat Addr Message RemoteHostDB}

theorem Led.host_eq (hl : Led db p) :
    ∃ this, db.host 0 = .done this ∧ this.control = some (ctl p) := by
  obtain ⟨this, h0, hc⟩ := hl
  exact ⟨this, by rw [RemoteHostDB.host, h0], hc⟩

theorem Led.setupLoop_eq (hl : Led db p) (e : Machine) (fuel : Nat) :
    db.setupLoop e (fuel + 1) = (readSetup (some (ctl p))).bind fun msg =>
      (db.setupHandle e msg).bind (answer e fuel msg) := by
  obtain ⟨this, h0, hc⟩ := hl.host_eq
  rw [RemoteHostDB.setupLoop, h0]
  simp only [Prog.bind_eq, Prog.bind_done, hc]
  rfl

theorem Led.push_back (hl : Led db p) (h : RemoteHost) : Led (db.push_back h) p := by
  obtain ⟨this, h0, hc⟩ := hl
  refine ⟨this, ?_, hc⟩
  obtain ⟨hlt, hget⟩ := List.getElem?_eq_some_iff.mp h0
  rw [RemoteHostDB.push_back, List.getElem?_append_left hlt]
  exact h0

/-- A slave waits for a message of the master. -/
def idle (e : Machine) (fuel num : Nat) (db : RemoteHostDB) :
    Node Nat Addr Message RemoteHostDB :=
  ⟨db.setupLoop e fuel, ⟨num, fun _ => []⟩, 0⟩

/-- A slave has a message of the master to read. -/
def told (p : Nat) (e : Machine) (fuel num : Nat) (db : RemoteHostDB) (msg : SetupMessage) :
    Node Nat Addr Message RemoteHostDB :=
  ⟨db.setupLoop e fuel, waiting num [ctl p] (fun _ => .setup msg), 0⟩

theorem Led.blocked (hl : Led db p) (e : Machine) (fuel num : Nat) :
    (idle e (fuel + 1) num db).Blocked resolve q := by
  rw [idle, hl.setupLoop_eq]
  exact Node.blocked_recv rfl 0

/-- A slave reads a message of the master. -/
theorem Led.read_leads (hl : Led db p) (hs : s p = told p e (fuel + 1) num db msg) :
    Leads (network resolve start) s (fun u =>
      u p = ⟨(db.setupHandle e msg).bind (answer e fuel msg), ⟨num, fun _ => []⟩, 0⟩ ∧
      ∀ q, q ≠ p → u q = s q) := by
  rw [told, hl.setupLoop_eq] at hs
  have he : Exec resolve p (readSetup (some (ctl p)))
      (waiting num [ctl p] (fun _ => .setup msg)) [] msg
      ((waiting num [ctl p] (fun _ => .setup msg)).read (ctl p) []) :=
    exec_readSetup rfl (waiting_head num (ctl p) [] _)
  rw [waiting_read List.not_mem_nil, waiting.eq_def num [], pending_nil] at he
  refine (he.leads (fun d hd => absurd hd List.not_mem_nil) hs).mono ?_
  rintro u rfl
  exact ⟨Net.after_self _ _, fun q hq => Net.after_of_ne _ _ hq⟩

/-- The acknowledgement of a slave. -/
def acks (l : List (Conn Nat)) : List (Nat × Delivery Nat Message) :=
  letters 0 (fun _ => .ack ⟨.SETUP_ACK⟩) l

/-- A slave acknowledges. -/
theorem Led.answer_leads (hl : Led db p) (hp : p ≠ 0)
    (hs : s p = ⟨answer e fuel msg db, ⟨num, fun _ => []⟩, 0⟩) :
    Leads (network resolve start) s (fun u =>
      u p = ⟨if msg.type = .SETUP_END then .done db else db.setupLoop e fuel,
        ⟨num, fun _ => []⟩, 0⟩ ∧
      u 0 = (s 0).addAll 0 (acks [ctl p]) ∧ ∀ q, q ≠ p → q ≠ 0 → u q = s q) := by
  obtain ⟨this, h0, hc⟩ := hl.host_eq
  rw [answer, h0, Prog.bind_done] at hs
  have he : Exec resolve p (writeAll this.control (.ack ⟨.SETUP_ACK⟩)) ⟨num, fun _ => []⟩
      (acks [ctl p]) () ⟨num, fun _ => []⟩ := exec_writeAll _ hc (ctl_peer p)
  refine (he.leads (fun d hd => ?_) hs).mono ?_
  · rw [List.mem_singleton.mp hd]
    exact hp.symm
  · rintro u rfl
    refine ⟨Net.after_self _ _, Net.after_of_ne _ _ hp.symm, fun q hqp hq0 => ?_⟩
    rw [Net.after_of_ne _ _ hqp, Node.addAll_of_ne (fun d hd => ?_)]
    rw [List.mem_singleton.mp hd]
    exact hq0.symm

/-! ## The messages -/

theorem setupHandle_connect (db : RemoteHostDB) (e : Machine) (host : String) (port i : Int) :
    db.setupHandle e ⟨.SETUP_CONNECT, host, port, i⟩ =
      (dial e (e.roll db.hosts.length) (host, port) (.new host)).bind fun h =>
        (recvHello e (e.roll db.hosts.length) h).bind fun h => .done (db.push_back h) := by
  simp [RemoteHostDB.setupHandle, RemoteHostDB.connect, connect_eq]

theorem setupHandle_accept (db : RemoteHostDB) (e : Machine) (host : String) (port i : Int) :
    db.setupHandle e ⟨.SETUP_ACCEPT, host, port, i⟩ =
      ((RemoteHost.new host).acceptScratch 0 (dataChans + 1)).bind fun h =>
        (handshake e (e.roll db.hosts.length) false { h with lastchan := 1 }).bind fun h =>
          .done (db.push_back h) := by
  simp [RemoteHostDB.setupHandle, RemoteHostDB.accept, RemoteHost.accept]

theorem setupHandle_master (this : RemoteHost) (al : Int) (e : Machine) (host : String)
    (port i : Int) :
    RemoteHostDB.setupHandle e ⟨[this], al⟩ ⟨.SETUP_MASTER, host, port, i⟩ =
      (dialMaster e (e.roll 0) (host, port) this).bind fun h =>
        (recvHello e (e.roll 0) h).bind fun h => .done ⟨[h], i⟩ := by
  simp [RemoteHostDB.setupHandle, RemoteHostDB.host, connectMasterData_eq,
    RemoteHostDB.setHost]

/-- **SETUP_END.** -/
theorem Led.end_leads (hl : Led db p) (hp : p ≠ 0) (hmsg : msg.type = .SETUP_END)
    (hs : s p = told p e (fuel + 1) num db msg) :
    Leads (network resolve start) s (fun u =>
      u p = ⟨.done db, ⟨num, fun _ => []⟩, 0⟩ ∧
      u 0 = (s 0).addAll 0 (acks [ctl p]) ∧ ∀ q, q ≠ p → q ≠ 0 → u q = s q) := by
  refine (hl.read_leads hs).trans ?_
  rintro u₁ ⟨hp₁, ho₁⟩
  have hhandle : db.setupHandle e msg = .done db := by
    unfold RemoteHostDB.setupHandle
    rw [hmsg]
    rfl
  rw [hhandle, Prog.bind_done] at hp₁
  refine (hl.answer_leads hp hp₁).mono ?_
  rintro u ⟨h1, h2, h3⟩
  rw [if_pos hmsg] at h1
  rw [ho₁ 0 hp.symm] at h2
  exact ⟨h1, h2, fun q hqp hq0 => (h3 q hqp hq0).trans (ho₁ q hqp)⟩

/-- **SETUP_ACCEPT AND SETUP_CONNECT.** -/
theorem pair_leads {dba dbb : RemoteHostDB} {fa fb na nb : Nat} {name : String}
    {port i j : Int} (hla : Led dba a) (hlb : Led dbb b) (ha : a ≠ 0) (hb : b ≠ 0)
    (hab : b ≠ a) (hid : (w.machine a).self ≠ (w.machine b).self)
    (hr : resolve ((w.machine a).host, (w.machine a).port) = some a)
    (hsa : s a = told a (w.machine a) (fa + 1) na dba ⟨.SETUP_ACCEPT, name, port, i⟩)
    (hsb : s b = told b (w.machine b) (fb + 1) nb dbb
      ⟨.SETUP_CONNECT, (w.machine a).host, (w.machine a).port, j⟩)
    (hothers : ∀ p, p ≠ a → p ≠ b → (s p).Blocked resolve p) :
    Leads (network resolve start) s (fun u => ∃ h h' nb', Joined w a b h h' ∧
      u a = idle (w.machine a) fa na (dba.push_back h) ∧
      u b = idle (w.machine b) fb nb' (dbb.push_back h') ∧
      u 0 = (s 0).addAll 0 (acks [ctl a, ctl b]) ∧
      ∀ p, p ≠ 0 → p ≠ a → p ≠ b → u p = s p) := by
  refine (hlb.read_leads hsb).trans ?_
  rintro u₁ ⟨hb₁, ho₁⟩
  refine (hla.read_leads ((ho₁ a hab.symm).trans hsa)).trans ?_
  rintro u₂ ⟨ha₂, ho₂⟩
  have hb₂ := (ho₂ b hab).trans hb₁
  have hsame₂ : ∀ p, p ≠ a → p ≠ b → u₂ p = s p :=
    fun p hpa hpb => (ho₂ p hpa).trans (ho₁ p hpb)
  obtain ⟨hd, hwired, hlast, hdial⟩ := exec_dial (e := w.machine b) (b := b) (k := nb) hr
    (.new (w.machine a).host) (fun _ => [])
  rw [setupHandle_connect, Prog.bind_assoc] at hb₂
  rw [setupHandle_accept, Prog.bind_assoc, ← row_length b a nb (dataChans + 1)] at ha₂
  simp only [Prog.bind_assoc, Prog.bind_done] at ha₂ hb₂
  refine (meet_leads hab hid hwired hlast hdial ?_ ha₂ hb₂ (fun p hpa hpb => ?_)).trans ?_
  · intro l hl
    refine ⟨l, hl, fun i hi => ?_⟩
    have hget := scratched_get (h := .new name) 0 l i hi
    rwa [Nat.zero_add] at hget
  · rw [hsame₂ p hpa hpb]
    exact hothers p hpa hpb
  rintro u₃ ⟨h, h', hmet, ha₃, hb₃, ho₃⟩
  refine ((hla.push_back h).answer_leads ha ha₃).trans ?_
  rintro u₄ ⟨ha₄, h0₄, ho₄⟩
  refine ((hlb.push_back h').answer_leads hb ((ho₄ b hab hb).trans hb₃)).mono ?_
  rintro u ⟨hb₅, h0₅, ho₅⟩
  refine ⟨h, h', _, hmet.joined hab hid, ?_, hb₅, ?_, fun p hp0 hpa hpb => ?_⟩
  · rw [ho₅ a hab.symm ha]
    exact ha₄
  · rw [h0₅, h0₄, ho₃ 0 ha.symm hb.symm, hsame₂ 0 ha.symm hb.symm]
    rfl
  · rw [ho₅ p hpb hp0, ho₄ p hpa hp0, ho₃ p hpa hpb, hsame₂ p hpa hpb]

/-- **SETUP_MASTER.** -/
theorem master_leads {this hm : RemoteHost} {al n : Int} {n0 r : Nat}
    {ka : RemoteHost → Code RemoteHostDB} (hb : b ≠ 0) (hid : (w.machine 0).self ≠ (w.machine b).self)
    (hr : resolve ((w.machine 0).host, (w.machine 0).port) = some 0)
    (hthis : this.control = some (ctl b)) (hscratch : hm.scratchSockets 0 = some (ctl b))
    (hs0 : s 0 = ⟨(hm.acceptMasterData (w.machine 0) r).bind ka, ⟨n0, fun _ => []⟩, 0⟩)
    (hsb : s b = told b (w.machine b) (fuel + 1) 1 ⟨[this], al⟩
      ⟨.SETUP_MASTER, (w.machine 0).host, (w.machine 0).port, n⟩)
    (hothers : ∀ p, p ≠ 0 → p ≠ b → (s p).Blocked resolve p) :
    Leads (network resolve start) s (fun u => ∃ h h' nb', Joined w 0 b h h' ∧
      h.control = some (ctl b) ∧ u 0 = (⟨ka h, ⟨n0, fun _ => []⟩, 0⟩ : Node _ _ _ _).addAll 0
        (acks [ctl b]) ∧
      u b = idle (w.machine b) fuel nb' ⟨[h'], n⟩ ∧ ∀ p, p ≠ 0 → p ≠ b → u p = s p) := by
  have hled : ∀ {h : RemoteHost} {i : Int}, h.control = some (ctl b) → Led ⟨[h], i⟩ b :=
    fun hc => ⟨_, rfl, hc⟩
  refine ((hled hthis).read_leads hsb).trans ?_
  rintro u₁ ⟨hb₁, ho₁⟩
  have h0₁ := (ho₁ 0 hb.symm).trans hs0
  obtain ⟨hd, hwired, hlast, hdial⟩ := exec_dialMaster (e := w.machine b) (b := b) (k := 0) hr
    hthis (fun _ => [])
  have hlen : (row b 0 (0 + 1) dataChans).length = dataChans := row_length _ _ _ _
  rw [setupHandle_master, Prog.bind_assoc] at hb₁
  simp only [RemoteHost.acceptMasterData, Prog.bind_eq] at h0₁
  rw [Prog.bind_assoc, ← hlen] at h0₁
  simp only [Prog.bind_assoc, Prog.bind_done] at hb₁
  refine (meet_leads hb hid hwired hlast hdial ?_ h0₁ hb₁ (fun p hp0 hpb => ?_)).trans ?_
  · intro l hl
    refine ⟨ctl b :: l, ?_, fun i hi => ?_⟩
    · rw [row_succ]
      exact hl.cons _
    · cases i with
      | zero => exact (scratched_of_lt Nat.one_pos l).trans hscratch
      | succ i =>
          have hget := scratched_get (h := hm) 1 l i (Nat.lt_of_succ_lt_succ hi)
          rwa [Nat.add_comm] at hget
  · rw [ho₁ p hpb]
    exact hothers p hp0 hpb
  rintro u₂ ⟨h, h', hmet, h0₂, hb₂, ho₂⟩
  refine ((hled hmet.wired'.control).answer_leads hb hb₂).mono ?_
  rintro u ⟨hb₃, h0₃, ho₃⟩
  refine ⟨h, h', _, hmet.joined hb hid, hmet.wired.control, ?_, hb₃, fun p hp0 hpb => ?_⟩
  · rw [h0₃, h0₂]
  · rw [ho₃ p hpb hp0, ho₂ p hp0 hpb, ho₁ p hpb]

end PbSetup
