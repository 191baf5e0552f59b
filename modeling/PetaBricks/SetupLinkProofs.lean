import PetaBricks.SetupServeProofs

/-! # Connection set-up — the slaves connect, and the master links up with them

    Each slave connects to the master as soon as it runs.  The master accepts them in some
    order and numbers them in that order (`Order`); then it links up with one after the
    other (`Linking`). -/

namespace PbSetup

open PbEventual PbSocketNet RemoteHost
open PbRemoteChannel (dataChans)

/-- The hosts file starts with the master's own line, the processes differ, and each listens
    at its address. -/
structure World.Ok (w : World) : Prop where
  first : w.PBS = false → ∀ line ∈ w.lines.head?, line = "localhost"
  ids : ∀ p ≤ w.slaves, ∀ q ≤ w.slaves, p ≠ q → (w.machine p).self ≠ (w.machine q).self
  found : ∀ p ≤ w.slaves, w.resolve ((w.machine p).host, (w.machine p).port) = some p

variable {w : World} {F : Nat} {s : Net Nat Addr Message RemoteHostDB}
  {start : Net Nat Addr Message RemoteHostDB}

/-! ## The slaves connect to the master -/

/-- Host 0 of a slave that has connected. -/
def joiner (w : World) (p : Nat) : RemoteHost :=
  { RemoteHost.new (w.machine 0).host with control := some (ctl p) }

theorem led_joiner (w : World) (p : Nat) : Led ⟨[joiner w p], 0⟩ p := ⟨_, rfl, rfl⟩

/-- The connections of the first slaves. -/
def callers (j : Nat) : List (Conn Nat) := (List.range j).map fun i => ctl (i + 1)

theorem callers_succ (j : Nat) : callers (j + 1) = callers j ++ [ctl (j + 1)] := by
  rw [callers, List.range_succ, List.map_append]
  rfl

theorem callers_length (j : Nat) : (callers j).length = j := by simp [callers]

/-- The first slaves have connected. -/
structure Dialed (w : World) (F j : Nat) (s : Net Nat Addr Message RemoteHostDB) : Prop where
  master : s 0 = { w.start F 0 with backlog := callers j }
  dialed : ∀ p, p ≠ 0 → p ≤ j → s p = idle (w.machine p) F 1 ⟨[joiner w p], 0⟩
  rest : ∀ p, j < p → s p = w.start F p

theorem dialed_leads (hok : w.Ok) (F j : Nat) (hj : j ≤ w.slaves) :
    Leads (network w.resolve start) (w.start F) (Dialed w F j) := by
  induction j with
  | zero =>
      refine .refl ⟨rfl, fun p hp hp0 => ?_, fun p _ => rfl⟩
      exact absurd (Nat.le_zero.mp hp0) hp
  | succ j ih =>
      refine (ih (Nat.le_of_succ_le hj)).trans ?_
      intro s hs
      have hprog : s (j + 1) =
          ⟨((RemoteHost.new (w.machine 0).host).connectMasterControl
            ((w.machine 0).host, (w.machine 0).port)).bind fun h =>
              (RemoteHostDB.empty.push_back h).setupLoop (w.machine (j + 1)) F,
            ⟨0, fun _ => []⟩, 0⟩ := by
        rw [hs.rest (j + 1) (Nat.lt_succ_self j), World.start, if_neg (Nat.succ_ne_zero j),
          if_pos hj]
        rfl
      have he : Exec w.resolve (j + 1)
          ((RemoteHost.new (w.machine 0).host).connectMasterControl
            ((w.machine 0).host, (w.machine 0).port))
          ⟨0, fun _ => []⟩ (calls 0 [ctl (j + 1)]) (joiner w (j + 1)) ⟨1, fun _ => []⟩ :=
        .connect (hok.found 0 (Nat.zero_le _)) (.done _ _)
      refine (he.leads (fun d hd => ?_) hprog).mono ?_
      · rw [List.mem_singleton.mp hd]
        exact (Nat.succ_ne_zero j).symm
      rintro u rfl
      refine ⟨?_, fun p hp hpj => ?_, fun p hp => ?_⟩
      · rw [Net.after_of_ne _ _ (Nat.succ_ne_zero j).symm, Node.addAll_calls, hs.master,
          callers_succ, ← Multiset.coe_add]
      · by_cases hpj' : p = j + 1
        · subst hpj'
          rw [Net.after_self]
          rfl
        · rw [Net.after_of_ne _ _ hpj', Node.addAll_of_ne (fun d hd => ?_)]
          · exact hs.dialed p hp (by omega)
          · rw [List.mem_singleton.mp hd]
            exact hp.symm
      · rw [Net.after_of_ne _ _ (by omega), Node.addAll_of_ne (fun d hd => ?_)]
        · exact hs.rest p (by omega)
        · rw [List.mem_singleton.mp hd]
          show 0 ≠ p
          omega

/-! ## The master accepts them -/

/-- The lines of the hosts file after the first that name a slave. -/
def named (lines : List String) : Nat := (lines.filter (· ≠ "")).length

/-- The host object of a slave before it is told anything. -/
def accepted (line : String) (c : Conn Nat) : RemoteHost :=
  { RemoteHost.new line with scratchSockets := Function.update (fun _ => none) 0 (some c) }

theorem accept_line {PBS ff : Bool} (hff : (PBS && ff) = false) (e : Machine) (line : String)
    (rest : List String) (db : RemoteHostDB) :
    readHosts e PBS (line :: rest) true ff db =
      if line = "" then readHosts e PBS rest true (ff && !PBS) db
      else .accept fun c =>
        readHosts e PBS rest true (ff && !PBS) (db.push_back (accepted line c)) := by
  rw [readHosts, hff]
  by_cases hblank : line = ""
  · subst hblank
    simp [jassert]
  · by_cases hlocal : line = "localhost"
    · subst hlocal
      simp [jassert, RemoteHostDB.accept, acceptMasterControl, acceptScratch, Prog.loop]
      rfl
    · simp [jassert, RemoteHostDB.accept, acceptMasterControl, acceptScratch, Prog.loop,
        hblank, hlocal]
      rfl

theorem readHosts_leads {resolve : Addr → Option Nat} {e : Machine} {PBS : Bool}
    {m : Mem Nat Message} {k : RemoteHostDB → Code RemoteHostDB} (lines : List String) {ff : Bool}
    (hff : (PBS && ff) = false) {db : RemoteHostDB} {b : Multiset (Conn Nat)}
    (hs : s 0 = ⟨(readHosts e PBS lines true ff db).bind k, m, b⟩) (hb : named lines ≤ b.card)
    (hothers : ∀ q, q ≠ 0 → (s q).Blocked resolve q) :
    Leads (network resolve start) s (fun u => ∃ (l : List (Conn Nat)) (rem : Multiset (Conn Nat))
      (hosts : List RemoteHost), l.length = named lines ∧ (l : Multiset (Conn Nat)) + rem = b ∧
        hosts.map (fun h => h.scratchSockets 0) = l.map some ∧
        u 0 = ⟨k { db with hosts := db.hosts ++ hosts }, m, rem⟩ ∧ ∀ q, q ≠ 0 → u q = s q) := by
  induction lines generalizing s db b ff with
  | nil =>
      refine .refl ⟨[], b, [], rfl, zero_add b, rfl, ?_, fun q _ => rfl⟩
      rw [List.append_nil]
      exact hs
  | cons line rest ih =>
      have hff' : (PBS && (ff && !PBS)) = false := by
        cases PBS
        · rfl
        · simp
      rw [accept_line hff] at hs
      by_cases hblank : line = ""
      · rw [if_pos hblank] at hs
        have hnamed : named (line :: rest) = named rest := by simp [named, hblank]
        rw [hnamed] at hb ⊢
        exact ih hff' hs hb hothers
      · rw [if_neg hblank] at hs
        have hnamed : named (line :: rest) = named rest + 1 := by simp [named, hblank]
        have hne : b ≠ 0 := by
          rintro rfl
          rw [hnamed, Multiset.card_zero] at hb
          omega
        refine (accept_leads hs hne hothers).trans ?_
        rintro u₁ ⟨c, hc, hu₁, ho₁⟩
        have hcard : named rest ≤ (b.erase c).card := by
          rw [Multiset.card_erase_of_mem hc]
          exact Nat.le_pred_of_lt (by omega)
        refine (ih hff' hu₁ hcard (fun q hq => ?_)).mono ?_
        · rw [ho₁ q hq]
          exact hothers q hq
        rintro u ⟨l, rem, hosts, hlen, hsum, hsc, hu, ho⟩
        refine ⟨c :: l, rem, accepted line c :: hosts, ?_, ?_, ?_, ?_, fun q hq =>
          (ho q hq).trans (ho₁ q hq)⟩
        · rw [List.length_cons, hlen, hnamed]
        · rw [← Multiset.cons_coe, Multiset.cons_add, hsum, Multiset.cons_erase hc]
        · rw [List.map_cons, List.map_cons, hsc]
          rfl
        · rw [hu, RemoteHostDB.push_back, List.append_assoc]
          rfl

theorem readHosts_first (hok : w.Ok) (e : Machine) :
    ∃ ff, (w.PBS && ff) = false ∧ readHosts e w.PBS w.lines false true .empty =
      readHosts e w.PBS w.lines.tail true ff .empty := by
  cases hlines : w.lines with
  | nil => exact ⟨false, Bool.and_false _, rfl⟩
  | cons line rest =>
      refine ⟨!w.PBS, Bool.and_not_self _, ?_⟩
      have hdat : (if (w.PBS && true) = true then "localhost" else line) = "localhost" := by
        cases hpbs : w.PBS with
        | true => rfl
        | false => exact hok.first hpbs line (by rw [hlines]; rfl)
      rw [readHosts]
      simp only [hdat, jassert, Prog.bind_eq, Prog.pure_eq]
      simp

/-- An order of the machines: the master, then the slaves as they were accepted. -/
structure Order (w : World) (σ : Nat → Nat) : Prop where
  zero : σ 0 = 0
  bij : Set.BijOn σ (Set.Iic w.slaves) (Set.Iic w.slaves)

variable {σ : Nat → Nat} {x y : Nat}

theorem Order.ne (ho : Order w σ) (hx : x ≤ w.slaves) (hy : y ≤ w.slaves) (hxy : x ≠ y) :
    σ x ≠ σ y := fun h => hxy (ho.bij.injOn hx hy h)

theorem Order.ne_zero (ho : Order w σ) (hx : x + 1 ≤ w.slaves) : σ (x + 1) ≠ 0 := by
  rw [← ho.zero]
  exact ho.ne hx (Nat.zero_le _) (Nat.succ_ne_zero x)

theorem Order.le (ho : Order w σ) (hx : x ≤ w.slaves) : σ x ≤ w.slaves := ho.bij.mapsTo hx

/-- The order in which the connections of the slaves were accepted. -/
theorem exists_order {l : List (Conn Nat)}
    (hl : l.Perm (callers w.slaves)) :
    ∃ σ, Order w σ ∧ ∀ x (hx : x < l.length), l[x] = ctl (σ (x + 1)) := by
  set ps := 0 :: l.map Conn.client with hps
  have hperm : ps.Perm (List.range (w.slaves + 1)) := by
    rw [List.range_succ_eq_map, hps]
    refine (hl.map Conn.client).cons 0 |>.trans ?_
    rw [callers, List.map_map]
    exact List.Perm.refl _
  have hlen : ps.length = w.slaves + 1 := hperm.length_eq.trans List.length_range
  have hget : ∀ {x}, x ≤ w.slaves → ∃ hx : x < ps.length, ps.getD x 0 = ps[x] := by
    intro x hx
    exact ⟨by omega, List.getD_eq_getElem _ _ _⟩
  have hnd : ps.Nodup := hperm.nodup_iff.mpr List.nodup_range
  refine ⟨fun x => ps.getD x 0, ⟨rfl, fun x hx => ?_, fun x hx y hy hxy => ?_, fun y hy => ?_⟩,
    fun x hx => ?_⟩
  · obtain ⟨hxl, heq⟩ := hget hx
    have hmem : ps[x] ∈ List.range (w.slaves + 1) := hperm.mem_iff.mp (List.getElem_mem hxl)
    show ps.getD x 0 ≤ w.slaves
    rw [heq]
    exact Nat.le_of_lt_succ (List.mem_range.mp hmem)
  · obtain ⟨hxl, heqx⟩ := hget hx
    obtain ⟨hyl, heqy⟩ := hget hy
    have heq : ps.getD x 0 = ps.getD y 0 := hxy
    rw [heqx, heqy] at heq
    exact (hnd.getElem_inj_iff).mp heq
  · have hmem : y ∈ ps := hperm.mem_iff.mpr (List.mem_range.mpr (Nat.lt_succ_of_le hy))
    obtain ⟨x, hx, heq⟩ := List.getElem_of_mem hmem
    exact ⟨x, Nat.le_of_lt_succ (hx.trans_eq hlen), (List.getD_eq_getElem _ _ hx).trans heq⟩
  · have hmem := hl.mem_iff.mp (List.getElem_mem hx)
    obtain ⟨i, -, hi⟩ := List.mem_map.mp hmem
    have hclient : ps.getD (x + 1) 0 = l[x].client := by
      rw [hps, List.getD_cons_succ, List.getD_eq_getElem _ _ (by rwa [List.length_map]),
        List.getElem_map]
    show l[x] = ctl (ps.getD (x + 1) 0)
    rw [hclient, ← hi]
    rfl

/-! ## The master links up with each slave -/

/-- Nothing is on its way to the master, and no other machine takes part. -/
structure Still (w : World) (F : Nat) (s : Net Nat Addr Message RemoteHostDB) : Prop where
  mem : ∃ num, (s 0).mem = ⟨num, fun _ => []⟩
  backlog : (s 0).backlog = 0
  rest : ∀ p, w.slaves < p → s p = w.start F p

/-- The master has linked up with the first slaves, and the others have connected only. -/
structure Linking (w : World) (F : Nat) (σ : Nat → Nat) (i : Nat) (db : RemoteHostDB)
    (s : Net Nat Addr Message RemoteHostDB) : Prop extends Still w F s where
  alloc : db.allocHostNumber = 0
  length : db.hosts.length = w.slaves
  linked : ∀ x < i, ∃ h h' num, db.hosts[x]? = some h ∧ Joined w 0 (σ (x + 1)) h h' ∧
    h.control = some (ctl (σ (x + 1))) ∧
    s (σ (x + 1)) = idle (w.machine (σ (x + 1))) (F - 1) num ⟨[h'], (x + 1 : Nat)⟩
  fresh : ∀ x, i ≤ x → x < w.slaves →
    (∃ h, db.hosts[x]? = some h ∧ h.scratchSockets 0 = some (ctl (σ (x + 1)))) ∧
    s (σ (x + 1)) = idle (w.machine (σ (x + 1))) F 1 ⟨[joiner w (σ (x + 1))], 0⟩

theorem start_blocked {p : Nat} (hp : w.slaves < p) (F : Nat) :
    (w.start F p).Blocked w.resolve p := by
  have hp0 : p ≠ 0 := by omega
  rw [World.start, if_neg hp0, if_neg (Nat.not_le_of_lt hp)]
  exact Node.blocked_done _ _

theorem linking_leads (hok : w.Ok) (F : Nat) (hF : 0 < F) :
    Leads (network w.resolve start) (w.start F) (fun u => ∃ σ, ∃ db : RemoteHostDB, Order w σ ∧
      Linking w F σ 0 { db with allocHostNumber := 0 } u ∧
      (u 0).prog = db.setupConnectAllPairs (w.machine 0)) := by
  refine (dialed_leads hok F w.slaves (Nat.le_refl _)).trans ?_
  intro s hs
  obtain ⟨ff, hff, hfirst⟩ := readHosts_first hok (w.machine 0)
  have hprog : s 0 = ⟨(readHosts (w.machine 0) w.PBS w.lines.tail true ff .empty).bind
      (RemoteHostDB.setupConnectAllPairs (w.machine 0)), ⟨0, fun _ => []⟩,
      callers w.slaves⟩ := by
    rw [hs.master, ← hfirst]
    rfl
  have hcard : named w.lines.tail ≤ (callers w.slaves : Multiset (Conn Nat)).card := by
    rw [Multiset.coe_card, callers_length]
    exact Nat.le_refl _
  obtain ⟨f, rfl⟩ := Nat.exists_eq_succ_of_ne_zero (Nat.ne_of_gt hF)
  refine (readHosts_leads w.lines.tail hff hprog hcard (fun q hq => ?_)).mono ?_
  · by_cases hqn : q ≤ w.slaves
    · rw [hs.dialed q hq hqn]
      exact (led_joiner w q).blocked _ _ _
    · rw [hs.rest q (Nat.lt_of_not_le hqn)]
      exact start_blocked (Nat.lt_of_not_le hqn) _
  rintro u ⟨l, rem, hosts, hlen, hsum, hsc, hu, ho⟩
  have hn : l.length = w.slaves := hlen
  have hrem : rem = 0 := by
    have hc := congrArg Multiset.card hsum
    rw [Multiset.card_add, Multiset.coe_card, Multiset.coe_card, callers_length, hn] at hc
    exact Multiset.card_eq_zero.mp (by omega)
  subst hrem
  rw [add_zero] at hsum
  obtain ⟨σ, hσ, hget⟩ := exists_order (Multiset.coe_eq_coe.mp hsum)
  have hhosts : hosts.length = w.slaves := by
    have hmap := congrArg List.length hsc
    rwa [List.length_map, List.length_map, hn] at hmap
  refine ⟨σ, ⟨hosts, 0⟩, hσ, ⟨⟨⟨0, ?_⟩, ?_, fun p hp => ?_⟩, rfl, hhosts,
    fun x hx => absurd hx (Nat.not_lt_zero x), fun x _ hx => ⟨?_, ?_⟩⟩, ?_⟩
  · rw [hu]
  · rw [hu]
  · rw [ho p (by omega), hs.rest p hp]
  · have hxh : x < hosts.length := hx.trans_eq hhosts.symm
    have hxl : x < l.length := hx.trans_eq hn.symm
    refine ⟨hosts[x], List.getElem?_eq_getElem hxh, ?_⟩
    have hsame := congrArg (fun l => l[x]?) hsc
    simp only [List.getElem?_map, List.getElem?_eq_getElem hxh, List.getElem?_eq_getElem hxl,
      Option.map_some, Option.some.injEq] at hsame
    rw [hsame, hget x hxl]
  · rw [ho _ (hσ.ne_zero hx), hs.dialed _ (hσ.ne_zero hx) (hσ.le hx)]
  · rw [hu]
    rfl

theorem letters_to {p q : Nat} {f : Conn Nat → Message} {l : List (Conn Nat)} (hpq : p ≠ q) :
    ∀ d ∈ letters p f l, d.1 ≠ q := by
  intro d hd
  obtain ⟨c, -, rfl⟩ := List.mem_map.mp hd
  exact hpq

/-- The master tells a slave something. -/
theorem tell_leads {resolve : Addr → Option Nat} {so : Socket} {p num fuel np : Nat}
    {msg : SetupMessage} {k : Unit → Code RemoteHostDB} {e : Machine} {db : RemoteHostDB}
    (hp : p ≠ 0) (hso : so = some (ctl p))
    (hs : s 0 = ⟨(writeAll so (.setup msg)).bind k, ⟨num, fun _ => []⟩, 0⟩)
    (hsp : s p = idle e fuel np db) :
    Leads (network resolve start) s (fun u => u 0 = ⟨k (), ⟨num, fun _ => []⟩, 0⟩ ∧
      u p = told p e fuel np db msg ∧ ∀ q, q ≠ 0 → q ≠ p → u q = s q) := by
  have he : Exec resolve 0 (writeAll so (.setup msg)) ⟨num, fun _ => []⟩
      (letters p (fun _ => .setup msg) [ctl p]) () ⟨num, fun _ => []⟩ :=
    exec_writeAll _ hso (ctl_peer_master hp)
  refine (he.leads (letters_to hp) hs).mono ?_
  rintro u rfl
  refine ⟨Net.after_self _ _, ?_, fun q hq0 hqp => ?_⟩
  · rw [Net.after_of_ne _ _ hp, hsp, Node.addAll_letters_idle rfl (List.nodup_singleton _)]
    rfl
  · rw [Net.after_of_ne _ _ hq0, Node.addAll_of_ne (letters_to (Ne.symm hqp))]

/-- The master reads the acknowledgement of a slave. -/
theorem exec_ack {resolve : Addr → Option Nat} {so : Socket} {c : Conn Nat}
    {l : List (Conn Nat)} (hso : so = some c) (hc : c ∉ l) (num : Nat) :
    Exec resolve 0 (readAck so) (waiting num (c :: l) (fun _ => .ack ⟨.SETUP_ACK⟩)) []
      ⟨.SETUP_ACK⟩ (waiting num l (fun _ => .ack ⟨.SETUP_ACK⟩)) := by
  rw [← waiting_read hc]
  exact exec_readAck hso (waiting_head num c l _)

theorem addAll_acks {x : Code RemoteHostDB} {l : List (Conn Nat)} (hl : l.Nodup) (num : Nat) :
    (⟨x, ⟨num, fun _ => []⟩, 0⟩ : Node Nat Addr Message RemoteHostDB).addAll 0 (acks l) =
      ⟨x, waiting num l (fun _ => .ack ⟨.SETUP_ACK⟩), 0⟩ := by
  rw [acks, Node.addAll_letters_idle rfl hl]
  rfl

/-- The master goes on when a slave has acknowledged. -/
theorem ack_leads {resolve : Addr → Option Nat} {so : Socket} {c : Conn Nat} {num : Nat}
    {k : Unit → Code RemoteHostDB} (hso : so = some c)
    (hs : s 0 = (⟨(readAck so).bind fun ack => (jassert (ack.type = .SETUP_ACK)).bind k,
      ⟨num, fun _ => []⟩, 0⟩ : Node Nat Addr Message RemoteHostDB).addAll 0 (acks [c])) :
    Leads (network resolve start) s (fun u => u 0 = ⟨k (), ⟨num, fun _ => []⟩, 0⟩ ∧
      ∀ q, q ≠ 0 → u q = s q) := by
  rw [addAll_acks (List.nodup_singleton c), ← Prog.bind_assoc] at hs
  have he : Exec resolve 0 ((readAck so).bind fun ack => jassert (ack.type = .SETUP_ACK))
      (waiting num [c] (fun _ => .ack ⟨.SETUP_ACK⟩)) [] ()
      (waiting num [] (fun _ => .ack ⟨.SETUP_ACK⟩)) :=
    (exec_ack hso List.not_mem_nil num).seq (exec_jassert rfl)
  refine (he.leads (fun d hd => absurd hd List.not_mem_nil) hs).mono ?_
  rintro u rfl
  refine ⟨?_, fun q hq => Net.after_of_ne _ _ hq⟩
  rw [Net.after_self, waiting, pending_nil]

theorem Joined.control_eq {p q : Nat} {h h' : RemoteHost} (hj : Joined w p q h h') :
    h'.control = h.control := by
  obtain ⟨c, -, h1, h2⟩ := hj.control
  rw [h1, h2]

/-- A slave is the next machine of the order after some other. -/
theorem Order.exists_succ (hσ : Order w σ) {p : Nat} (hp : p ≠ 0) (hpn : p ≤ w.slaves) :
    ∃ x, x < w.slaves ∧ σ (x + 1) = p := by
  obtain ⟨x, hx, rfl⟩ := hσ.bij.surjOn hpn
  cases x with
  | zero => exact absurd hσ.zero hp
  | succ x => exact ⟨x, hx, rfl⟩

theorem Linking.blocked (hσ : Order w σ) (hF : 1 < F) {i : Nat} {db : RemoteHostDB}
    (hs : Linking w F σ i db s) {p : Nat} (hp : p ≠ 0) : (s p).Blocked w.resolve p := by
  obtain ⟨f, rfl⟩ : ∃ f, F = f + 2 := ⟨F - 2, by omega⟩
  by_cases hpn : p ≤ w.slaves
  · obtain ⟨x, hx, rfl⟩ := hσ.exists_succ hp hpn
    by_cases hxi : x < i
    · obtain ⟨h, h', num, -, hj, hc, hidle⟩ := hs.linked x hxi
      rw [hidle]
      exact Led.blocked ⟨h', rfl, hj.control_eq.trans hc⟩ _ _ _
    · rw [(hs.fresh x (Nat.le_of_not_lt hxi) hx).2]
      exact (led_joiner w _).blocked _ _ _
  · rw [hs.rest p (Nat.lt_of_not_le hpn)]
    exact start_blocked (Nat.lt_of_not_le hpn) _

/-- **A PASS OF THE FIRST LOOP.** -/
theorem Linking.pass (hok : w.Ok) (hσ : Order w σ) (hF : 1 < F) {i : Nat} (hi : i < w.slaves)
    (db : RemoteHostDB) :
    Does w.resolve start 0 (Linking w F σ i db) (db.setupMaster (w.machine 0) i)
      (Linking w F σ (i + 1)) := by
  intro k s hs hk
  obtain ⟨⟨h, hh, hsc⟩, hb⟩ := hs.fresh i (Nat.le_refl i) hi
  obtain ⟨num, hmem⟩ := hs.mem
  have hb0 := hσ.ne_zero hi
  generalize hbσ : σ (i + 1) = b at *
  have hs0 : s 0 = ⟨(writeAll (h.scratchSockets 0)
      (.setup ⟨.SETUP_MASTER, (w.machine 0).host, (w.machine 0).port, (i + 1 : Nat)⟩)).bind
        fun _ => (h.acceptMasterData (w.machine 0) ((w.machine 0).roll i)).bind fun h =>
          (readAck h.control).bind fun ack =>
            (jassert (ack.type = .SETUP_ACK)).bind fun _ => k (db.setHost i h),
      ⟨num, fun _ => []⟩, 0⟩ := by
    have heta : s 0 = ⟨(s 0).prog, (s 0).mem, (s 0).backlog⟩ := rfl
    rw [heta, hk, hmem, hs.backlog, RemoteHostDB.setupMaster, RemoteHostDB.host, hh]
    simp [setupRemoteConnectionWithMaster]
  obtain ⟨f, rfl⟩ : ∃ f, F = f + 2 := ⟨F - 2, by omega⟩
  refine (tell_leads hb0 hsc hs0 hb).trans ?_
  rintro u₁ ⟨h0₁, hb₁, ho₁⟩
  have hids : (w.machine 0).self ≠ (w.machine b).self :=
    hok.ids 0 (Nat.zero_le _) b (hbσ ▸ hσ.le hi) (Ne.symm hb0)
  refine (master_leads hb0 hids (hok.found 0 (Nat.zero_le _)) rfl hsc h0₁ hb₁ ?_).trans ?_
  · intro p hp0 hpb
    rw [ho₁ p hp0 hpb]
    exact hs.blocked hσ hF hp0
  rintro u₂ ⟨h₁, h₂, num', hj, hc, h0₂, hb₂, ho₂⟩
  refine (ack_leads hc h0₂).mono ?_
  rintro u ⟨h0₃, ho₃⟩
  have hsame : ∀ p, p ≠ 0 → p ≠ b → u p = s p :=
    fun p hp0 hpb => (ho₃ p hp0).trans ((ho₂ p hp0 hpb).trans (ho₁ p hp0 hpb))
  have hb₃ := (ho₃ b hb0).trans hb₂
  refine ⟨db.setHost i h₁, ⟨⟨⟨num, ?_⟩, ?_, fun p hp => ?_⟩, hs.alloc, ?_, fun x hx => ?_,
    fun x hix hx => ?_⟩, ?_⟩
  · rw [h0₃]
  · rw [h0₃]
  · have hbn : b ≤ w.slaves := hbσ ▸ hσ.le hi
    rw [hsame p (by omega) (by omega)]
    exact hs.rest p hp
  · rw [RemoteHostDB.setHost, List.length_set]
    exact hs.length
  · rcases Nat.lt_or_eq_of_le (Nat.le_of_lt_succ hx) with hlt | rfl
    · obtain ⟨g, g', np, hg, hjg, hcg, hidle⟩ := hs.linked x hlt
      have hne : σ (x + 1) ≠ b := hbσ ▸ hσ.ne (by omega) hi (by omega)
      refine ⟨g, g', np, ?_, hjg, hcg, (hsame _ (hσ.ne_zero (by omega)) hne).trans hidle⟩
      rw [RemoteHostDB.setHost, List.getElem?_set_ne (by omega)]
      exact hg
    · have hlen : x < db.hosts.length := hi.trans_eq hs.length.symm
      rw [hbσ]
      refine ⟨h₁, h₂, num', ?_, hj, hc, hb₃⟩
      rw [RemoteHostDB.setHost, List.getElem?_set_self hlen]
  · obtain ⟨⟨g, hg, hgs⟩, hidle⟩ := hs.fresh x (by omega) hx
    have hne : σ (x + 1) ≠ b := hbσ ▸ hσ.ne hx hi (by omega)
    refine ⟨⟨g, ?_, hgs⟩, (hsame _ (hσ.ne_zero hx) hne).trans hidle⟩
    rw [RemoteHostDB.setHost, List.getElem?_set_ne (by omega)]
    exact hg
  · rw [h0₃]

end PbSetup
