import PetaBricks.SetupLinkProofs

/-! # Connection set-up — every pair of hosts ends up connected

    For any number of slaves, and however the processes interleave: no assertion fails,
    nobody waits for ever, and at the end each host has one link to each other host.  The
    two ends of a link have the same control connection and the same data connections
    channel by channel, know each other, agree on who collects garbage, and never choose
    the same data channel to send on.  `allocHost(i)` is the same machine everywhere.

    The master drives the others, so the proof follows its loops: at the head of each
    pass everybody else waits for a message of the master. -/

namespace PbSetup

open PbEventual PbSocketNet RemoteHost

variable {w : World} {F x y : Nat} {σ : Nat → Nat}
  {start s : Net Nat Addr Message RemoteHostDB}

/-! ## The master pairs the slaves -/

/-- The number of hosts of a slave when the pair `(a, b)` comes next. -/
def reach (n a b x : Nat) : Nat :=
  if x < a then n else if x = a then b else if x < b then a + 2 else a + 1

/-- The links there are when the pair `(a, b)` comes next. -/
structure Paired (w : World) (σ : Nat → Nat) (db : RemoteHostDB) (dbs : Nat → RemoteHostDB)
    (a b : Nat) : Prop where
  alloc : ∀ x < w.slaves, (dbs x).allocHostNumber = (x + 1 : Nat)
  length : ∀ x < w.slaves, (dbs x).hosts.length = reach w.slaves a b x
  first : ∀ x < w.slaves, ∃ h h', db.hosts[x]? = some h ∧ (dbs x).hosts[0]? = some h' ∧
    Joined w 0 (σ (x + 1)) h h' ∧ h.control = some (ctl (σ (x + 1)))
  linked : ∀ x y, x < y → y < w.slaves → (x < a ∨ x = a ∧ y < b) → ∃ h h',
    (dbs x).hosts[y]? = some h ∧ (dbs y).hosts[x + 1]? = some h' ∧
    Joined w (σ (x + 1)) (σ (y + 1)) h h'

/-- The slaves wait, with the hosts they have. -/
structure Pairing (w : World) (F : Nat) (σ : Nat → Nat) (dbs : Nat → RemoteHostDB)
    (s : Net Nat Addr Message RemoteHostDB) : Prop extends Still w F s where
  idle : ∀ x < w.slaves, ∃ num, s (σ (x + 1)) =
    idle (w.machine (σ (x + 1))) (F - (dbs x).hosts.length) num (dbs x)

variable {db : RemoteHostDB} {dbs : Nat → RemoteHostDB} {a b : Nat}

theorem Paired.led (hp : Paired w σ db dbs a b) (hx : x < w.slaves) :
    Led (dbs x) (σ (x + 1)) := by
  obtain ⟨h, h', -, h0, hj, hc⟩ := hp.first x hx
  exact ⟨h', h0, hj.control_eq.trans hc⟩

theorem reach_le (hab : a < b) (hbn : b ≤ w.slaves) (hx : x < w.slaves) :
    reach w.slaves a b x ≤ w.slaves := by
  unfold reach
  split_ifs <;> omega

theorem Pairing.blocked (hs : Pairing w F σ dbs s) (hσ : Order w σ)
    (hp : Paired w σ db dbs a b) (hab : a < b) (hbn : b ≤ w.slaves) (hF : w.slaves < F)
    {p : Nat} (hp0 : p ≠ 0) : (s p).Blocked w.resolve p := by
  by_cases hpn : p ≤ w.slaves
  · obtain ⟨x, hx, rfl⟩ := hσ.exists_succ hp0 hpn
    obtain ⟨num, hidle⟩ := hs.idle x hx
    have hle : (dbs x).hosts.length ≤ w.slaves := by
      rw [hp.length x hx]
      exact reach_le hab hbn hx
    obtain ⟨f, hf⟩ : ∃ f, F - (dbs x).hosts.length = f + 1 :=
      ⟨F - (dbs x).hosts.length - 1, by omega⟩
    rw [hidle, hf]
    exact (hp.led hx).blocked _ _ _
  · rw [hs.rest p (Nat.lt_of_not_le hpn)]
    exact start_blocked (Nat.lt_of_not_le hpn) _

/-! ### A pair -/

theorem push_back_get {i : Nat} {g : RemoteHost} (hg : db.hosts[i]? = some g) (h : RemoteHost) :
    (db.push_back h).hosts[i]? = some g := by
  obtain ⟨hlt, -⟩ := List.getElem?_eq_some_iff.mp hg
  rw [RemoteHostDB.push_back, List.getElem?_append_left hlt]
  exact hg

theorem push_back_last (db : RemoteHostDB) (h : RemoteHost) :
    (db.push_back h).hosts[db.hosts.length]? = some h := by
  rw [RemoteHostDB.push_back, List.getElem?_append_right (Nat.le_refl _), Nat.sub_self]
  rfl

theorem push_back_length (db : RemoteHostDB) (h : RemoteHost) :
    (db.push_back h).hosts.length = db.hosts.length + 1 := by
  rw [RemoteHostDB.push_back, List.length_append]
  rfl

/-- The databases after a pair has been made. -/
def paired (dbs : Nat → RemoteHostDB) (a b : Nat) (h h' : RemoteHost) (x : Nat) : RemoteHostDB :=
  if x = a then (dbs a).push_back h else if x = b then (dbs b).push_back h' else dbs x

theorem paired_get {h h' g : RemoteHost} {i : Nat} (hg : (dbs x).hosts[i]? = some g) :
    (paired dbs a b h h' x).hosts[i]? = some g := by
  unfold paired
  split
  · next hx =>
      subst hx
      exact push_back_get hg h
  · split
    · next hx =>
        subst hx
        exact push_back_get hg h'
    · exact hg

theorem paired_alloc (h h' : RemoteHost) :
    (paired dbs a b h h' x).allocHostNumber = (dbs x).allocHostNumber := by
  unfold paired
  split
  · next hx =>
      subst hx
      rfl
  · split
    · next hx =>
        subst hx
        rfl
    · rfl

theorem Paired.pair (hp : Paired w σ db dbs a b) (hab : a < b) (hbn : b < w.slaves)
    {h h' : RemoteHost} (hj : Joined w (σ (a + 1)) (σ (b + 1)) h h') :
    Paired w σ db (paired dbs a b h h') a (b + 1) := by
  have hlena : (dbs a).hosts.length = b := by
    rw [hp.length a (by omega), reach, if_neg (Nat.lt_irrefl a), if_pos rfl]
  have hlenb : (dbs b).hosts.length = a + 1 := by
    rw [hp.length b hbn, reach, if_neg (by omega), if_neg (by omega), if_neg (Nat.lt_irrefl b)]
  have ha : paired dbs a b h h' a = (dbs a).push_back h := if_pos rfl
  have hb : paired dbs a b h h' b = (dbs b).push_back h' := by
    rw [paired, if_neg (by omega), if_pos rfl]
  refine ⟨fun x hx => ?_, fun x hx => ?_, fun x hx => ?_, fun x y hxy hy hdone => ?_⟩
  · rw [paired_alloc]
    exact hp.alloc x hx
  · by_cases hxa : x = a
    · subst hxa
      rw [ha, push_back_length, hlena, reach, if_neg (Nat.lt_irrefl x), if_pos rfl]
    · by_cases hxb : x = b
      · subst hxb
        rw [hb, push_back_length, hlenb, reach, if_neg (by omega), if_neg hxa,
          if_pos (Nat.lt_succ_self x)]
      · rw [paired, if_neg hxa, if_neg hxb, hp.length x hx, reach, reach, if_neg hxa, if_neg hxa]
        split_ifs <;> omega
  · obtain ⟨g, g', hg, hg', hjg, hc⟩ := hp.first x hx
    exact ⟨g, g', hg, paired_get hg', hjg, hc⟩
  · by_cases hnew : x = a ∧ y = b
    · obtain ⟨rfl, rfl⟩ := hnew
      refine ⟨h, h', ?_, ?_, hj⟩
      · rw [ha, ← hlena]
        exact push_back_last _ _
      · rw [hb, ← hlenb]
        exact push_back_last _ _
    · obtain ⟨g, g', hg, hg', hjg⟩ := hp.linked x y hxy hy (by omega)
      exact ⟨g, g', paired_get hg, paired_get hg', hjg⟩

/-- The part of `setupRemoteConnection` that waits. -/
def readAcks (a b : RemoteHost) : Code Unit :=
  (readAck a.control).bind fun aack => (readAck b.control).bind fun back =>
    (jassert (aack.type = .SETUP_ACK)).bind fun _ => jassert (back.type = .SETUP_ACK)

theorem exec_readAcks {resolve : Addr → Option Nat} {ha hb : RemoteHost} {p q : Nat}
    (hpq : q ≠ p) (hca : ha.control = some (ctl p)) (hcb : hb.control = some (ctl q))
    (num : Nat) :
    Exec resolve 0 (readAcks ha hb)
      (waiting num [ctl p, ctl q] (fun _ => .ack ⟨.SETUP_ACK⟩)) [] () ⟨num, fun _ => []⟩ := by
  have hcc : ctl p ∉ [ctl q] := fun hin => hpq (ctl_inj (List.mem_singleton.mp hin)).symm
  have he : Exec resolve 0 (readAck hb.control)
      (waiting num [ctl q] (fun _ => .ack ⟨.SETUP_ACK⟩)) [] ⟨.SETUP_ACK⟩
      (waiting num [] (fun _ => .ack ⟨.SETUP_ACK⟩)) := exec_ack hcb List.not_mem_nil num
  rw [waiting.eq_def num [], pending_nil] at he
  exact (exec_ack hca hcc num).seq (he.seq ((exec_jassert rfl).seq (exec_jassert rfl)))

/-- **A PASS OF THE SECOND LOOP.** -/
theorem Pairing.pass (hok : w.Ok) (hσ : Order w σ) (hF : w.slaves < F)
    (hp : Paired w σ db dbs a b) (hab : a < b) (hbn : b < w.slaves) :
    Does w.resolve start 0 (Pairing w F σ dbs) (db.setupPair a b) (fun _ s => ∃ h h',
      Joined w (σ (a + 1)) (σ (b + 1)) h h' ∧ Pairing w F σ (paired dbs a b h h') s) := by
  intro k s hs hk
  have han : a < w.slaves := by omega
  obtain ⟨ha, ha', hha, -, hja, hca⟩ := hp.first a han
  obtain ⟨hb, hb', hhb, -, -, hcb⟩ := hp.first b hbn
  obtain ⟨num, hmem⟩ := hs.mem
  obtain ⟨na, hia⟩ := hs.idle a han
  obtain ⟨nb, hib⟩ := hs.idle b hbn
  have hlea := reach_le hab (Nat.le_of_lt hbn) han
  have hleb := reach_le hab (Nat.le_of_lt hbn) hbn
  rw [← hp.length a han] at hlea
  rw [← hp.length b hbn] at hleb
  obtain ⟨fa, hfa⟩ : ∃ f, F - (dbs a).hosts.length = f + 1 :=
    ⟨F - (dbs a).hosts.length - 1, by omega⟩
  obtain ⟨fb, hfb⟩ : ∃ f, F - (dbs b).hosts.length = f + 1 :=
    ⟨F - (dbs b).hosts.length - 1, by omega⟩
  have hp0 : σ (a + 1) ≠ 0 := hσ.ne_zero han
  have hq0 : σ (b + 1) ≠ 0 := hσ.ne_zero hbn
  have hpq : σ (b + 1) ≠ σ (a + 1) := hσ.ne hbn han (by omega)
  have hs0 : s 0 = ⟨(writeAll ha.control (.setup
      ⟨.SETUP_ACCEPT, hb.connectName, hb.remotePort, -1⟩)).bind fun _ =>
        (writeAll hb.control (.setup
          ⟨.SETUP_CONNECT, ha.connectName, ha.remotePort, -1⟩)).bind fun _ =>
            (readAcks ha hb).bind k, ⟨num, fun _ => []⟩, 0⟩ := by
    have heta : s 0 = ⟨(s 0).prog, (s 0).mem, (s 0).backlog⟩ := rfl
    rw [heta, hk, hmem, hs.backlog, RemoteHostDB.setupPair, RemoteHostDB.host, hha,
      RemoteHostDB.host, hhb]
    simp [setupRemoteConnection, readAcks]
  rw [hfa] at hia
  rw [hfb] at hib
  rw [hja.knows.connectName, hja.knows.remotePort] at hs0
  refine (tell_leads hp0 hca hs0 hia).trans ?_
  rintro u₁ ⟨h0₁, ha₁, ho₁⟩
  refine (tell_leads hq0 hcb h0₁ ((ho₁ _ hq0 hpq).trans hib)).trans ?_
  rintro u₂ ⟨h0₂, hb₂, ho₂⟩
  have hsame₂ : ∀ r, r ≠ 0 → r ≠ σ (a + 1) → r ≠ σ (b + 1) → u₂ r = s r :=
    fun r hr0 hra hrb => (ho₂ r hr0 hrb).trans (ho₁ r hr0 hra)
  refine (pair_leads (hp.led han) (hp.led hbn) hp0 hq0 hpq
    (hok.ids _ (hσ.le han) _ (hσ.le hbn) (Ne.symm hpq)) (hok.found _ (hσ.le han))
    ((ho₂ _ hp0 (Ne.symm hpq)).trans ha₁) hb₂ (fun r hra hrb => ?_)).trans ?_
  · by_cases hr0 : r = 0
    · subst hr0
      rw [h0₂, readAcks, hca]
      exact Node.blocked_recv rfl 0
    · rw [hsame₂ r hr0 hra hrb]
      exact hs.blocked hσ hp hab (Nat.le_of_lt hbn) hF hr0
  rintro u₃ ⟨h, h', nb', hj, ha₃, hb₃, h0₃, ho₃⟩
  have hcc : ctl (σ (a + 1)) ∉ [ctl (σ (b + 1))] :=
    fun hin => hpq (ctl_inj (List.mem_singleton.mp hin)).symm
  rw [h0₂, addAll_acks (List.nodup_cons.mpr ⟨hcc, List.nodup_singleton _⟩)] at h0₃
  refine ((exec_readAcks hpq hca hcb num).leads (fun d hd => absurd hd List.not_mem_nil)
    h0₃).mono ?_
  rintro u rfl
  have hafter : ∀ r, r ≠ 0 → u₃.after 0 ⟨k (), ⟨num, fun _ => []⟩, 0⟩ [] r = u₃ r :=
    fun r hr => Net.after_of_ne _ _ hr
  refine ⟨(), ⟨h, h', hj, ⟨⟨num, ?_⟩, ?_, fun r hr => ?_⟩, fun x hx => ?_⟩, ?_⟩
  · rw [Net.after_self]
  · rw [Net.after_self]
  · have h1 : σ (a + 1) ≤ w.slaves := hσ.le han
    have h2 : σ (b + 1) ≤ w.slaves := hσ.le hbn
    rw [hafter r (by omega), ho₃ r (by omega) (by omega) (by omega),
      hsame₂ r (by omega) (by omega) (by omega)]
    exact hs.rest r hr
  · rw [hafter _ (hσ.ne_zero hx)]
    by_cases hxa : x = a
    · subst hxa
      have hpa : paired dbs x b h h' x = (dbs x).push_back h := if_pos rfl
      have hfuel : F - ((dbs x).hosts.length + 1) = fa := by omega
      rw [hpa, push_back_length, hfuel]
      exact ⟨na, ha₃⟩
    · by_cases hxb : x = b
      · subst hxb
        have hpb : paired dbs a x h h' x = (dbs x).push_back h' := by
          rw [paired, if_neg hxa, if_pos rfl]
        have hfuel : F - ((dbs x).hosts.length + 1) = fb := by omega
        rw [hpb, push_back_length, hfuel]
        exact ⟨nb', hb₃⟩
      · have hpx : paired dbs a b h h' x = dbs x := by rw [paired, if_neg hxa, if_neg hxb]
        obtain ⟨nx, hidle⟩ := hs.idle x hx
        have hna : σ (x + 1) ≠ σ (a + 1) := hσ.ne hx han (by omega)
        have hnb : σ (x + 1) ≠ σ (b + 1) := hσ.ne hx hbn (by omega)
        rw [hpx, ho₃ _ (hσ.ne_zero hx) hna hnb, hsame₂ _ (hσ.ne_zero hx) hna hnb]
        exact ⟨nx, hidle⟩
  · rw [Net.after_self]

/-! ### All pairs -/

theorem reach_next (hx : x < w.slaves) :
    reach w.slaves a w.slaves x = reach w.slaves (a + 1) (a + 1 + 1) x := by
  unfold reach
  split_ifs <;> omega

theorem Paired.next (hp : Paired w σ db dbs a w.slaves) :
    Paired w σ db dbs (a + 1) (a + 1 + 1) := by
  refine ⟨hp.alloc, fun x hx => ?_, hp.first, fun x y hxy hy hdone => ?_⟩
  · rw [hp.length x hx]
    exact reach_next hx
  · exact hp.linked x y hxy hy (by omega)

/-- The state at the head of a pass. -/
def Pairs (w : World) (F : Nat) (σ : Nat → Nat) (db : RemoteHostDB) (a b : Nat)
    (s : Net Nat Addr Message RemoteHostDB) : Prop :=
  ∃ dbs, Paired w σ db dbs a b ∧ Pairing w F σ dbs s

/-- **THE SECOND LOOP.** -/
theorem pairs_does (hok : w.Ok) (hσ : Order w σ) (hF : w.slaves < F) (db : RemoteHostDB) :
    Does w.resolve start 0 (Pairs w F σ db 0 1)
      (Prog.loop w.slaves () fun _ a =>
        Prog.loop (w.slaves - (a + 1)) () fun _ i => db.setupPair a (a + 1 + i))
      (fun _ => Pairs w F σ db w.slaves (w.slaves + 1)) := by
  refine Does.loop (fun a _ => Pairs w F σ db a (a + 1)) (fun a ha _ => ?_)
  have hinner : Does w.resolve start 0 (Pairs w F σ db a (a + 1 + 0))
      (Prog.loop (w.slaves - (a + 1)) () fun _ i => db.setupPair a (a + 1 + i))
      (fun _ => Pairs w F σ db a (a + 1 + (w.slaves - (a + 1)))) := by
    refine Does.loop (fun i _ => Pairs w F σ db a (a + 1 + i)) (fun i hi _ => ?_)
    intro k s hs hk
    obtain ⟨dbs, hp, hd⟩ := hs
    have hb : a + 1 + i < w.slaves := by omega
    refine (Pairing.pass hok hσ hF hp (by omega) hb k s hd hk).mono ?_
    rintro u ⟨r, ⟨h, h', hj, hu⟩, hk'⟩
    exact ⟨r, ⟨_, hp.pair (by omega) hb hj, hu⟩, hk'⟩
  refine hinner.mono (fun s hs => hs) (fun _ s hs => ?_)
  obtain ⟨dbs, hp, hd⟩ := hs
  have hend : a + 1 + (w.slaves - (a + 1)) = w.slaves := by omega
  rw [hend] at hp
  exact ⟨dbs, hp.next, hd⟩

/-- After the first loop the pairs come next. -/
theorem Linking.pairs {db : RemoteHostDB} (hs : Linking w F σ w.slaves db s) :
    Pairs w F σ db 0 1 s := by
  have : Inhabited RemoteHost := ⟨.new ""⟩
  choose! h h' num hh hj hc hidle using hs.linked
  refine ⟨fun x => ⟨[h' x], (x + 1 : Nat)⟩, ⟨fun x _ => rfl, fun x hx => ?_, fun x hx => ?_,
    fun x y hxy hy hdone => ?_⟩, hs.toStill, fun x hx => ⟨num x, hidle x hx⟩⟩
  · unfold reach
    show 1 = _
    split_ifs <;> omega
  · exact ⟨h x, h' x, hh x hx, rfl, hj x hx, hc x hx⟩
  · omega

/-! ## The end -/

/-- The first slaves have ended. -/
structure Ending (w : World) (F : Nat) (σ : Nat → Nat) (dbs : Nat → RemoteHostDB) (i : Nat)
    (s : Net Nat Addr Message RemoteHostDB) : Prop extends Still w F s where
  ended : ∀ x < i, ∃ num, s (σ (x + 1)) = ⟨.done (dbs x), ⟨num, fun _ => []⟩, 0⟩
  idle : ∀ x, i ≤ x → x < w.slaves → ∃ num, s (σ (x + 1)) =
    idle (w.machine (σ (x + 1))) (F - w.slaves) num (dbs x)

/-- **A PASS OF THE THIRD LOOP.** -/
theorem Ending.pass (hσ : Order w σ) (hF : w.slaves < F) (hp : Paired w σ db dbs a b) {i : Nat}
    (hi : i < w.slaves) :
    Does w.resolve start 0 (Ending w F σ dbs i) (db.setupLast i)
      (fun _ => Ending w F σ dbs (i + 1)) := by
  intro k s hs hk
  obtain ⟨h, h', hh, -, -, hc⟩ := hp.first i hi
  obtain ⟨num, hmem⟩ := hs.mem
  obtain ⟨ni, hii⟩ := hs.idle i (Nat.le_refl i) hi
  obtain ⟨f, hf⟩ : ∃ f, F - w.slaves = f + 1 := ⟨F - w.slaves - 1, by omega⟩
  have hp0 : σ (i + 1) ≠ 0 := hσ.ne_zero hi
  have hs0 : s 0 = ⟨(writeAll h.control (.setup ⟨.SETUP_END, "", 0, 0⟩)).bind fun _ =>
      (readAck h.control).bind fun ack => (jassert (ack.type = .SETUP_ACK)).bind k,
      ⟨num, fun _ => []⟩, 0⟩ := by
    have heta : s 0 = ⟨(s 0).prog, (s 0).mem, (s 0).backlog⟩ := rfl
    rw [heta, hk, hmem, hs.backlog, RemoteHostDB.setupLast, RemoteHostDB.host, hh]
    simp [setupEnd]
  rw [hf] at hii
  refine (tell_leads hp0 hc hs0 hii).trans ?_
  rintro u₁ ⟨h0₁, hi₁, ho₁⟩
  refine ((hp.led hi).end_leads hp0 rfl hi₁).trans ?_
  rintro u₂ ⟨hi₂, h0₂, ho₂⟩
  rw [h0₁] at h0₂
  refine (ack_leads hc h0₂).mono ?_
  rintro u ⟨h0₃, ho₃⟩
  have hsame : ∀ r, r ≠ 0 → r ≠ σ (i + 1) → u r = s r :=
    fun r hr0 hri => (ho₃ r hr0).trans ((ho₂ r hri hr0).trans (ho₁ r hr0 hri))
  refine ⟨(), ⟨⟨⟨num, ?_⟩, ?_, fun r hr => ?_⟩, fun x hx => ?_, fun x hix hx => ?_⟩, ?_⟩
  · rw [h0₃]
  · rw [h0₃]
  · have h1 : σ (i + 1) ≤ w.slaves := hσ.le hi
    rw [hsame r (by omega) (by omega)]
    exact hs.rest r hr
  · rcases Nat.lt_or_eq_of_le (Nat.le_of_lt_succ hx) with hlt | rfl
    · rw [hsame _ (hσ.ne_zero (by omega)) (hσ.ne (by omega) hi (by omega))]
      exact hs.ended x hlt
    · exact ⟨ni, (ho₃ _ hp0).trans hi₂⟩
  · rw [hsame _ (hσ.ne_zero hx) (hσ.ne hx hi (by omega))]
    exact hs.idle x (by omega) hx
  · rw [h0₃]

/-- Every machine has set up its hosts. -/
structure Connected (w : World) (σ : Nat → Nat) (dbs : Nat → RemoteHostDB)
    (s : Net Nat Addr Message RemoteHostDB) : Prop where
  order : Order w σ
  ended : ∀ x ≤ w.slaves, (s (σ x)).prog = .done (dbs x)
  read : ∀ p c, (s p).mem.inbox c = []
  accepted : ∀ p, (s p).backlog = 0
  number : ∀ x ≤ w.slaves, (dbs x).allocHostNumber = x ∧ (dbs x).hosts.length = w.slaves ∧
    (dbs x).allocHost x = none
  joined : ∀ x ≤ w.slaves, ∀ y ≤ w.slaves, x ≠ y → ∃ h h', (dbs x).allocHost y = some h ∧
    (dbs y).allocHost x = some h' ∧ Joined w (σ x) (σ y) h h'

theorem allocHost_self {db : RemoteHostDB} (hx : db.allocHostNumber = x) :
    db.allocHost x = none := by
  rw [RemoteHostDB.allocHost, hx, if_neg (Int.lt_irrefl _), if_pos rfl]

theorem allocHost_of_lt {db : RemoteHostDB} (hx : db.allocHostNumber = x) (hxy : y < x) :
    db.allocHost y = db.hosts[y]? := by
  rw [RemoteHostDB.allocHost, hx, if_pos (Int.ofNat_lt.mpr hxy)]

theorem allocHost_of_gt {db : RemoteHostDB} (hx : db.allocHostNumber = x) (hxy : x < y) :
    db.allocHost y = db.hosts[y - 1]? := by
  rw [RemoteHostDB.allocHost, hx, if_neg (by omega), if_neg (by omega)]

/-- The databases of all machines. -/
def allDbs (db : RemoteHostDB) (dbs : Nat → RemoteHostDB) : Nat → RemoteHostDB
  | 0 => db
  | x + 1 => dbs x

theorem Paired.joined (hp : Paired w σ db dbs w.slaves (w.slaves + 1)) (hσ : Order w σ)
    (halloc : db.allocHostNumber = 0) (hxy : x < y) (hy : y ≤ w.slaves) :
    ∃ h h', (allDbs db dbs x).allocHost y = some h ∧ (allDbs db dbs y).allocHost x = some h' ∧
      Joined w (σ x) (σ y) h h' := by
  obtain ⟨y, rfl⟩ := Nat.exists_eq_succ_of_ne_zero (Nat.ne_zero_of_lt hxy)
  have hay : (allDbs db dbs (y + 1)).allocHostNumber = (y + 1 : Nat) := hp.alloc y hy
  cases x with
  | zero =>
      obtain ⟨h, h', hh, hh', hj, -⟩ := hp.first y hy
      refine ⟨h, h', ?_, ?_, ?_⟩
      · exact (allocHost_of_gt halloc hxy).trans hh
      · rw [allocHost_of_lt hay hxy]
        exact hh'
      · rw [hσ.zero]
        exact hj
  | succ x =>
      have hlt : x < y := Nat.lt_of_succ_lt_succ hxy
      obtain ⟨h, h', hh, hh', hj⟩ := hp.linked x y hlt hy (.inl (by omega))
      have hax : (allDbs db dbs (x + 1)).allocHostNumber = (x + 1 : Nat) :=
        hp.alloc x (Nat.lt_trans hlt hy)
      refine ⟨h, h', ?_, ?_, hj⟩
      · rw [allocHost_of_gt hax hxy]
        exact hh
      · rw [allocHost_of_lt hay hxy]
        exact hh'

/-- **THE THIRD LOOP.** -/
theorem ends_does (hσ : Order w σ) (hF : w.slaves < F) (db : RemoteHostDB) :
    Does w.resolve start 0 (Pairs w F σ db w.slaves (w.slaves + 1))
      (Prog.loop w.slaves () fun _ a => db.setupLast a)
      (fun _ s => ∃ dbs, Paired w σ db dbs w.slaves (w.slaves + 1) ∧
        Ending w F σ dbs w.slaves s) := by
  intro k s hs hk
  obtain ⟨dbs, hp, hd⟩ := hs
  have hstart : Ending w F σ dbs 0 s := by
    refine ⟨hd.toStill, fun x hx => absurd hx (Nat.not_lt_zero x), fun x _ hx => ?_⟩
    have hlen : (dbs x).hosts.length = w.slaves := by
      rw [hp.length x hx, reach, if_pos hx]
    rw [← hlen]
    exact hd.idle x hx
  refine (Does.loop (fun i _ => Ending w F σ dbs i)
    (fun i hi _ => Ending.pass hσ hF hp hi) k s hstart hk).mono ?_
  rintro u ⟨r, hu, hk'⟩
  exact ⟨r, ⟨dbs, hp, hu⟩, hk'⟩

/-- What the master does after the slaves have connected. -/
theorem all_does (hok : w.Ok) (hσ : Order w σ) (hF : w.slaves < F)
    (hdb : db.hosts.length = w.slaves) :
    Does w.resolve start 0 (Linking w F σ 0 { db with allocHostNumber := 0 })
      (db.setupConnectAllPairs (w.machine 0))
      (fun r s => r.allocHostNumber = 0 ∧ r.hosts.length = w.slaves ∧
        ∃ dbs, Paired w σ r dbs w.slaves (w.slaves + 1) ∧ Ending w F σ dbs w.slaves s) := by
  unfold RemoteHostDB.setupConnectAllPairs
  simp only [Prog.bind_eq, Prog.pure_eq, hdb]
  refine (Does.loop (fun i db => Linking w F σ i db)
    (fun i hi db => Linking.pass hok hσ (by omega) hi db)).bind (fun db => ?_)
  intro k s hs hk
  have hrest : Does w.resolve start 0 (Pairs w F σ db 0 1) _ (fun r s => r.allocHostNumber = 0 ∧
      r.hosts.length = w.slaves ∧ ∃ dbs, Paired w σ r dbs w.slaves (w.slaves + 1) ∧
        Ending w F σ dbs w.slaves s) :=
    (pairs_does hok hσ hF db).bind (fun _ => (ends_does hσ hF db).bind
      (fun _ => Does.done (fun u hu => ⟨hs.alloc, hs.length, hu⟩)))
  exact hrest k s hs.pairs hk

/-- All machines have ended, with all hosts connected. -/
theorem Ending.connected (hσ : Order w σ) (hs : Ending w F σ dbs w.slaves s)
    (hp : Paired w σ db dbs w.slaves (w.slaves + 1)) (halloc : db.allocHostNumber = 0)
    (hlen : db.hosts.length = w.slaves) (hprog : (s 0).prog = .done db) :
    Connected w σ (allDbs db dbs) s ∧ ∀ p, (s p).Blocked w.resolve p := by
  -- every node has ended, and nothing is left there
  have hnode : ∀ p, ∃ r num, s p = ⟨.done r, ⟨num, fun _ => []⟩, 0⟩ := by
    intro p
    by_cases hpn : p ≤ w.slaves
    · by_cases hp0 : p = 0
      · subst hp0
        obtain ⟨num, hmem⟩ := hs.mem
        refine ⟨db, num, ?_⟩
        rw [← hprog, ← hmem, ← hs.backlog]
      · obtain ⟨x, hx, rfl⟩ := hσ.exists_succ hp0 hpn
        obtain ⟨num, h⟩ := hs.ended x hx
        exact ⟨_, num, h⟩
    · have hp0 : p ≠ 0 := by omega
      rw [hs.rest p (Nat.lt_of_not_le hpn), World.start, if_neg hp0, if_neg hpn]
      exact ⟨_, _, rfl⟩
  refine ⟨⟨hσ, fun x hx => ?_, fun p c => ?_, fun p => ?_, fun x hx => ?_,
    fun x hx y hy hxy => ?_⟩, fun p => ?_⟩
  · cases x with
    | zero =>
        rw [hσ.zero]
        exact hprog
    | succ x =>
        obtain ⟨num, h⟩ := hs.ended x hx
        rw [h]
        rfl
  · obtain ⟨r, num, h⟩ := hnode p
    rw [h]
  · obtain ⟨r, num, h⟩ := hnode p
    rw [h]
  · cases x with
    | zero => exact ⟨halloc, hlen, allocHost_self (x := 0) halloc⟩
    | succ x =>
        refine ⟨hp.alloc x hx, (hp.length x hx).trans ?_, allocHost_self (hp.alloc x hx)⟩
        have hlt : x < w.slaves := hx
        rw [reach, if_pos hlt]
  · rcases Nat.lt_or_gt_of_ne hxy with hlt | hlt
    · exact hp.joined hσ halloc hlt hy
    · obtain ⟨h, h', hh, hh', hj⟩ := hp.joined hσ halloc hlt hx
      exact ⟨h', h, hh', hh, hj.symm⟩
  · obtain ⟨r, num, h⟩ := hnode p
    rw [h]
    exact Node.blocked_done _ _

/-- **EVERY PAIR OF HOSTS ENDS UP CONNECTED**: with enough fuel for the messages of the master,
    every run of the processes ends, and it ends with all hosts connected. -/
theorem setup_connects (hok : w.Ok) (hF : w.slaves < F) :
    Must (network w.resolve (w.start F)) (fun s => ∃ σ dbs, Connected w σ dbs s)
      (w.start F) := by
  have hlead : Leads (network w.resolve (w.start F)) (w.start F) (fun s =>
      (∃ σ dbs, Connected w σ dbs s) ∧ ∀ p, (s p).Blocked w.resolve p) := by
    refine (linking_leads hok F (Nat.zero_lt_of_lt hF)).trans ?_
    rintro s ⟨σ, db, hσ, hl, hprog⟩
    rw [← Prog.bind_pure (db.setupConnectAllPairs (w.machine 0))] at hprog
    refine (all_does hok hσ hF hl.length .done s hl hprog).mono ?_
    rintro u ⟨r, ⟨halloc, hlen, dbs, hp, hu⟩, hr⟩
    obtain ⟨hc, hb⟩ := hu.connected hσ hp halloc hlen hr
    exact ⟨⟨σ, _, hc⟩, hb⟩
  exact (hlead.must (fun t ht => next_blocked ht.2)).mono (fun t ht => ht.1)

/-! ### An instance -/

/-- Four processes on one machine, two of them with the same random number. -/
def localWorld : World where
  machine := fun p => ⟨⟨7, 100 + p⟩, "localhost", 22550 + p, fun _ => p / 2⟩
  resolve := fun a => if a.1 = "localhost" then some (a.2 - 22550).toNat else none
  PBS := false
  lines := ["localhost", "localhost", "", "localhost", "localhost"]

theorem setup_connects_local : localWorld.slaves = 3 ∧
    Must (network localWorld.resolve (localWorld.start 4))
      (fun s => ∃ σ dbs, Connected localWorld σ dbs s) (localWorld.start 4) := by
  refine ⟨by decide, setup_connects ⟨fun _ line hline => ?_, fun p _ q _ hpq heq => hpq ?_,
    fun p _ => ?_⟩ (by decide)⟩
  · exact (Option.some.inj hline).symm
  · have hpid := congrArg HostPid.pid heq
    simp only [localWorld] at hpid
    omega
  · simp [localWorld]

end PbSetup
