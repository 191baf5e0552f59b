import PetaBricks.DistributedGCTableProofs

/-! # Distributed collection — what is dropped is dropped for good

    Two collectors pick an object at different times, and messages may be on their way
    between the two.  What makes up for that:

    * an object that was written to or from since a collector took its table shows a
      generation that is not below the collector's (`Touched`);
    * when a collector looks at an object, what was sent before either table was taken
      has been read (`Flushes.asked`), so a message that is still on its way was sent
      since;
    * so when one side has picked an object, either the other side can see that it must
      not, or nothing is on its way and nobody has the object (`Agreed`).

    What both sides picked is out of reach on both hosts, and stays so. -/

namespace PbDistributedGC

open PbTransition State

variable {s t : State} {e : End}

/-! ## Messages since the table was taken -/

/-- An object a collector holds whose messages since are on their way shows it. -/
def Touched (s : State) : Prop :=
  ∀ c p, c.pair ≠ p → p ∈ (s.collector c).held → ∀ m ∈ s.channel (!c.host), m.sender = p →
    (s.collector c).gen ≤ m.stamp → (s.collector c).gen ≤ (s.object ⟨c.host, p⟩).lastMsgGen

/-- What a collector holds it held before, or it takes the table now. -/
theorem Move.held (h : Move s e t) (hm : Made s) {p : Pair}
    (hp : p ∈ (t.collector e).held) :
    p ∈ (s.collector e).held ∧ (t.collector e).gen = (s.collector e).gen ∨
      Work.swap ∈ (s.object e).work ∧ (t.collector e).gen = s.currentGen e.host + 1 := by
  rcases h.collects hm with ⟨heq, -, -⟩ | ⟨hw, heq, -⟩ | ⟨m, -, -, -, heq, -, -⟩ |
    ⟨r, k, rest, -, htmp, -, heq, -⟩ | ⟨r, k, rest, -, htmp, heq, -⟩ | ⟨r, -, -, heq, -⟩ |
    ⟨-, heq, -⟩ | ⟨m, -, -, -, -, -, heq, -⟩ | ⟨m, ptrs, -, -, -, -, -, heq, -⟩
  · rw [heq] at hp ⊢
    exact Or.inl ⟨hp, rfl⟩
  · exact Or.inr ⟨hw, by rw [heq]⟩
  · rw [heq] at hp ⊢
    refine Or.inl ⟨?_, rfl⟩
    simp only [Collector.held, List.mem_append, List.not_mem_nil, or_false] at hp ⊢
    tauto
  · rw [heq] at hp ⊢
    refine Or.inl ⟨?_, rfl⟩
    simp only [Collector.held, htmp, List.mem_append, List.mem_cons, List.not_mem_nil,
      or_false] at hp ⊢
    tauto
  · rw [heq] at hp ⊢
    refine Or.inl ⟨?_, rfl⟩
    simp only [Collector.held, htmp, List.mem_append, List.mem_cons, List.not_mem_nil,
      or_false] at hp ⊢
    tauto
  · rw [heq] at hp ⊢
    exact Or.inl ⟨hp, rfl⟩
  · rw [heq] at hp ⊢
    refine Or.inl ⟨?_, rfl⟩
    simp only [Collector.held, List.append_nil] at hp ⊢
    simp [hp]
  · rw [heq] at hp ⊢
    refine Or.inl ⟨?_, rfl⟩
    simp only [Collector.held, List.append_nil] at hp ⊢
    simp [hp]
  · rw [heq] at hp ⊢
    refine Or.inl ⟨?_, rfl⟩
    simp only [Collector.held, List.append_nil] at hp ⊢
    simp [hp]

theorem Scans.pair_of_held (hsc : Scans s) (hm : Made s) (hs : Swaps s) {c : End} {p : Pair}
    (hp : p ∈ (s.collector c).held) : c.pair ∈ s.pairs := by
  by_contra hnew
  have hzero := hsc.share_new hm hs (x := ⟨c.host, p⟩) hnew
  have hpos := List.count_pos_iff.mpr hp
  rw [State.share] at hzero
  exact Nat.ne_of_gt hpos (Nat.add_eq_zero_iff.mp hzero).1

/-- A share of an object is one of its places. -/
theorem share_le_places {x : End} {c : Pair} (hc : c ∈ s.pairs) : s.share x c ≤ s.places x := by
  rw [State.places, ← List.sum_map_erase (s.share x) hc]
  omega

theorem Placed.made_of_held (hp : Placed s) (hsc : Scans s) (hm : Made s) (hs : Swaps s)
    {c : End} {p : Pair} (hin : p ∈ (s.collector c).held) : s.made ⟨c.host, p⟩ = true := by
  have hle := share_le_places (x := ⟨c.host, p⟩) (hsc.pair_of_held hm hs hin)
  have hpos : 0 < (s.collector c).held.count p := List.count_pos_iff.mpr hin
  rw [hp.once, State.share] at hle
  cases hmade : s.made ⟨c.host, p⟩ with
  | true => rfl
  | false =>
      rw [hmade, Bool.toNat_false] at hle
      exact absurd (Nat.le_zero.mp hle) (Nat.ne_of_gt (Nat.add_pos_left hpos _))

/-- Who writes a message shows it to the collectors that hold it. -/
theorem Emits.touches {m : Msg} (hem : Emits s t e m) (hmv : Move s e t) (hm : Made s)
    (hg : Gens s) (hs : Swaps s) (hsc : Scans s) (hp : Placed s) {c : End}
    (hhost : c.host = e.host) (hc : c.pair ≠ e.pair) (hin : e.pair ∈ (s.collector c).held) :
    (s.collector c).gen ≤ (t.object e).lastMsgGen := by
  have hgen : (s.collector c).gen ≤ s.currentGen e.host := hhost ▸ hg.collector c
  cases hem with
  | create hnew hmade =>
      refine absurd (hm.paired ⟨c.host, e.pair⟩ ?_) hnew
      exact hp.made_of_held hsc hm hs hin
  | createAck hw hmade hl => rwa [hl]
  | stamped body hbody hcr ha hl => rwa [hl]
  | notify stage hcr ha hb =>
      -- an object that is behind does not send a message without a source
      rw [State.behind, List.any_eq_false] at hb
      have hlt := hb c.pair (hsc.pair_of_held hm hs hin)
      have hce : (⟨e.host, c.pair⟩ : End) = c := by
        rw [← hhost]
      rw [hce, decide_eq_true_eq] at hlt
      have hle : (s.collector c).gen ≤ (s.object e).lastMsgGen := by
        by_contra hgt
        exact hlt ⟨hc, hin, Nat.lt_of_not_le hgt⟩
      exact hle.trans (hg.object_mono hmv e)

theorem Touched.move (htc : Touched s) (hm : Made s) (hg : Gens s) (hs : Swaps s)
    (hsc : Scans s) (hp : Placed s) (h : Move s e t) : Touched t := by
  intro c p hc hin m hmem hsender hstamp
  rcases h.channel_mem hm hmem with hmem | ⟨hx, hm', -⟩
  · -- the message was on its way
    have hold : p ∈ (s.collector c).held ∧ (t.collector c).gen = (s.collector c).gen := by
      by_cases hce : c = e
      · subst hce
        rcases h.held hm hin with hold | ⟨-, hgen⟩
        · exact hold
        · have hle := hg.stamp _ m hmem
          rw [Bool.not_not] at hle
          omega
      · rw [h.collector hce] at hin ⊢
        exact ⟨hin, rfl⟩
    rw [hold.2] at hstamp ⊢
    exact (htc c p hc hold.1 m hmem hsender hstamp).trans (hg.object_mono h _)
  · -- the message is written now
    have hhost := Bool.not_inj hx
    have hce : c ≠ e := by
      rintro rfl
      exact hc (hm'.sender.symm.trans hsender)
    have hpe : p = e.pair := hsender.symm.trans hm'.sender
    subst hpe
    rw [h.collector hce] at hin ⊢
    have htouch := hm'.touches h hm hg hs hsc hp hhost hc hin
    rwa [hhost]

theorem Touched.initial : Touched State.initial := by
  intro c p _ hin
  cases hin

/-! ## Quiet ends -/

/-- Nobody has the object or works for it, and nothing it sent or was sent is on its way. -/
structure Quiet (s : State) (x : End) : Prop where
  paired : x.pair ∈ s.pairs
  asleep : (s.object x).Asleep
  channel : ∀ h, ∀ m ∈ s.channel h, m.sender ≠ x.pair

/-- A quiet end does not move. -/
theorem Quiet.not_move {x : End} (hq : Quiet s x) (hm : Made s) : ¬ Move s x t := by
  intro h
  have hawake : ∀ {w}, w ∉ (s.object x).work := by
    intro w hw
    exact RemoteObject.not_asleep_of_mem hw hq.asleep
  have hheld : ¬ (s.object x).held = true := by
    intro hh
    exact RemoteObject.not_asleep_of_held hh hq.asleep
  have hsent : ∀ m ∈ s.channel x.host, m.sender ≠ x.pair := hq.channel x.host
  cases h with
  | createRemoteObject hnew => exact hnew hq.paired
  | send ptrs hu =>
      rw [State.usable, Bool.and_eq_true] at hu
      exact hheld hu.2
  | notify stage hu hb =>
      rw [State.usable, Bool.and_eq_true] at hu
      exact hheld hu.2
  | retain hc hh => exact hheld hh
  | release hr => exact Nat.ne_of_gt hr hq.asleep.1
  | read m rest hch hdst =>
      have hin : m ∈ s.channel x.host := by rw [hch]; exact List.mem_cons_self
      exact hsent m hin (hm.sender hin hdst)
  | readCreate m rest hch hdst hbody hsrc =>
      have hin : m ∈ s.channel x.host := by rw [hch]; exact List.mem_cons_self
      rcases (hm.sent x.host m hin).2 with h | h
      · exact hsent m hin (Option.some.inj (hsrc.symm.trans h.2.1)).symm
      · exact h.1 hbody
  | construct hw => exact hawake hw
  | openWith m hw => exact hawake hw
  | skip m hw => exact hawake hw
  | flushed m hw => exact hawake hw
  | beginScan m hw => exact hawake hw
  | aborted m hw => exact hawake hw
  | onRecv m ptrs hw => exact hawake hw
  | swap hw => exact hawake hw
  | flush hw => exact hawake hw
  | scan r hw => exact hawake hw
  | respond r hw => exact hawake hw
  | abort hw => exact hawake hw
  | addObject received hw => exact hawake hw

/-- A quiet end stays quiet unless its peer writes to it. -/
theorem Quiet.move {x : End} (hq : Quiet s x) (hm : Made s) (h : Move s e t) :
    Quiet t x ∨ e = x.peer ∧ ∃ m, Emits s t e m := by
  have hne : x ≠ e := by
    rintro rfl
    exact hq.not_move hm h
  by_cases hem : e = x.peer ∧ ∃ m, Emits s t e m
  · exact Or.inr hem
  · refine Or.inl ⟨h.pairs_mono hq.paired, ?_, ?_⟩
    · rw [h.object hne]
      exact hq.asleep
    · intro y m hin hsender
      rcases h.channel_mem hm hin with hin | ⟨-, hm', -⟩
      · exact hq.channel y m hin hsender
      · rcases End.eq_or_peer (hm'.sender.symm.trans hsender) with heq | heq
        · exact hne heq.symm
        · exact hem ⟨heq, m, hm'⟩

/-! ## Both sides agree -/

/-- What one side has picked the other side can see it must not pick, or can pick. -/
structure Agreed (s : State) : Prop where
  other : ∀ x, ∀ p ∈ (s.collector x).marked, x.pair ≠ p
  half : ∀ x, ∀ p ∈ (s.collector x).marked, p ∈ (s.collector x.peer).held →
    p ∉ (s.collector x.peer).marked →
    (s.collector x.peer).gen ≤ (s.object ⟨!x.host, p⟩).lastMsgGen ∨ Quiet s ⟨x.host, p⟩
  both : ∀ x, ∀ p ∈ (s.collector x).marked, p ∈ (s.collector x.peer).marked →
    Quiet s ⟨x.host, p⟩

/-- What a collector looks at it has not picked. -/
theorem Placed.not_marked (hp : Placed s) (hsc : Scans s) (hm : Made s) (hs : Swaps s)
    {k : Pair} {rest : List Pair} (htmp : (s.collector e).tmp = k :: rest) :
    k ∉ (s.collector e).marked := by
  intro hk
  have hok := hsc.ok e
  rw [← (hok.unheard (hok.heard_eq (hok.incomplete_of_tmp htmp))).2] at hk
  have hdead : 0 < (s.collector e).objectsMaybeDead.count k := List.count_pos_iff.mpr hk
  have hin : k ∈ (s.collector e).held := by simp [Collector.held, htmp]
  have hle := share_le_places (x := ⟨e.host, k⟩) (hsc.pair_of_held hm hs hin)
  have he : (⟨e.host, e.pair⟩ : End) = e := rfl
  rw [hp.once, State.share] at hle
  simp only [Collector.held, he, htmp, List.count_append, List.count_cons_self] at hle
  have hone := Bool.toNat_le (s.made ⟨e.host, k⟩)
  omega

/-- Where a scan picks an object, nothing the object sent is on its way. -/
theorem Touched.silent (htc : Touched s) {k : Pair} (hpast : Past s e) (hne : e.pair ≠ k)
    (hin : k ∈ (s.collector e).held)
    (hlt : (s.object ⟨e.host, k⟩).lastMsgGen < (s.collector e).gen) :
    ∀ m ∈ s.channel (!e.host), m.sender ≠ k := by
  intro m hmem hsender
  have hle := htc e k hne hin m hmem hsender (hpast.2 m hmem)
  omega

theorem RemoteObject.deletable {o : RemoteObject} {gen : Nat}
    (h : o.maybeDeletable gen = true) : o.created = true ∧ o.Asleep ∧ o.lastMsgGen < gen := by
  simp only [RemoteObject.maybeDeletable, Bool.and_eq_true, decide_eq_true_eq] at h
  obtain ⟨⟨⟨hc, href⟩, hlt⟩, -⟩ := h
  rw [RemoteObject.refCount] at href
  exact ⟨hc, ⟨by omega, List.length_eq_zero_iff.mp (by omega)⟩, hlt⟩

/-- **A PICK IS SAFE.**  Where a collector picks an object, the object can be used on its
    host by nobody, and the other side can see this or has to give the object back. -/
theorem Agreed.picked (ha : Agreed s) (hm : Made s) (hs : Swaps s) (hf : Flushes s)
    (htk : Tokens s) (hsc : Scans s) (hp : Placed s) (htc : Touched s) {r : List EncodedPtr}
    {k : Pair} {rest : List Pair} (hw : Work.scan r ∈ (s.object e).work)
    (htmp : (s.collector e).tmp = k :: rest)
    (hdel : (s.object ⟨e.host, k⟩).maybeDeletable (s.collector e).gen = true) :
    e.pair ≠ k ∧
      (k ∈ (s.collector e.peer).held →
        (s.collector e.peer).gen ≤ (s.object ⟨!e.host, k⟩).lastMsgGen ∨
          Quiet s ⟨e.host, k⟩) ∧
      (k ∈ (s.collector e.peer).marked → Quiet s ⟨e.host, k⟩ ∧ Quiet s ⟨!e.host, k⟩) := by
  obtain ⟨hc, hasleep, hlt⟩ := RemoteObject.deletable hdel
  obtain ⟨hasked, -, -, -⟩ := htk.of_scan hw rfl (hm.work e _ hw).2
  obtain ⟨hpast, hpast'⟩ := hf.asked e hasked
  have hne : e.pair ≠ k := by
    rintro rfl
    exact RemoteObject.not_asleep_of_mem hw hasleep
  have hin : k ∈ (s.collector e).held := by simp [Collector.held, htmp]
  have hpaired : k ∈ s.pairs := hm.paired ⟨e.host, k⟩ (hm.made (Or.inl hc))
  have hout := htc.silent hpast hne hin hlt
  have hquiet : (∀ m ∈ s.channel e.host, m.sender ≠ k) → Quiet s ⟨e.host, k⟩ := by
    intro hback
    refine ⟨hpaired, hasleep, fun h m hmem => ?_⟩
    by_cases hh : h = e.host
    · exact hback m (hh ▸ hmem)
    · rw [Bool.eq_not_of_ne hh] at hmem
      exact hout m hmem
  refine ⟨hne, fun hheld => ?_, fun hmarked => ?_⟩
  · by_cases hback : ∀ m ∈ s.channel e.host, m.sender ≠ k
    · exact Or.inr (hquiet hback)
    · -- a message to the object on its way was sent since the other side took its table
      simp only [ne_eq, not_forall, not_not] at hback
      obtain ⟨m, hmem, hsender⟩ := hback
      have hmem' : m ∈ s.channel (!e.peer.host) := by
        rw [End.peer_host, Bool.not_not]
        exact hmem
      exact Or.inl (htc e.peer k hne hheld m hmem' hsender (hpast'.2 m hmem'))
  · rcases ha.half e.peer k hmarked (by rwa [End.peer_peer])
      (by rw [End.peer_peer]; exact hp.not_marked hsc hm hs htmp) with hgen | hq
    · rw [End.peer_peer, End.peer_host, Bool.not_not] at hgen
      omega
    · exact ⟨hquiet (hq.channel e.host), hq⟩

/-- Where an end has picked an object, both sides have taken their tables. -/
theorem Scans.swapped_of_marked (hsc : Scans s) (hf : Flushes s) {x : End} {p : Pair}
    (hp : p ∈ (s.collector x).marked) :
    (s.collector x).swapped = true ∧ (s.collector x.peer).swapped = true := by
  have hasked : (s.collector x).asked = true := by
    by_contra hasked
    rw [((hsc.ok x).unasked (by simpa using hasked)).2] at hp
    cases hp
  exact ⟨(hf.asked x hasked).1.1, (hf.asked x hasked).2.1⟩

/-- A collector that has taken its table takes nothing more. -/
theorem Swaps.held (hs : Swaps s) (hm : Made s) (h : Move s e t) {x : End} {p : Pair}
    (hsw : (s.collector x).swapped = true) (hp : p ∈ (t.collector x).held) :
    p ∈ (s.collector x).held := by
  by_cases hx : x = e
  · subst hx
    rcases h.held hm hp with ⟨hold, -⟩ | ⟨hw, -⟩
    · exact hold
    · rw [hs.unswapped hw] at hsw
      cases hsw
  · rwa [h.collector hx] at hp

theorem Move.marked_mono (h : Move s e t) (hm : Made s) {x : End} {p : Pair}
    (hp : p ∈ (s.collector x).marked) : p ∈ (t.collector x).marked := by
  by_cases hx : x = e
  · subst hx
    rcases h.marked hm with heq | ⟨r, k, rest, -, -, -, heq, -⟩
    · rwa [heq]
    · rw [heq]
      exact List.mem_append_left _ hp
  · rwa [h.collector hx]

/-- What is picked after a move was picked before, or is picked by the scan of the move. -/
theorem Move.marked_cases (h : Move s e t) (hm : Made s) {x : End} {p : Pair}
    (hp : p ∈ (t.collector x).marked) :
    p ∈ (s.collector x).marked ∨ x = e ∧ ∃ r rest, Work.scan r ∈ (s.object e).work ∧
      (s.collector e).tmp = p :: rest ∧
      (s.object ⟨e.host, p⟩).maybeDeletable (s.collector e).gen = true := by
  by_cases hx : x = e
  · subst hx
    rcases h.marked hm with heq | ⟨r, k, rest, hw, htmp, hdel, heq, -⟩
    · exact Or.inl (heq ▸ hp)
    · rw [heq] at hp
      rcases List.mem_append.mp hp with hp | hp
      · exact Or.inl hp
      · obtain rfl := List.mem_singleton.mp hp
        exact Or.inr ⟨rfl, r, rest, hw, htmp, hdel⟩
  · rw [h.collector hx] at hp
    exact Or.inl hp

theorem Agreed.move (ha : Agreed s) (hm : Made s) (hg : Gens s) (hs : Swaps s) (hf : Flushes s)
    (htk : Tokens s) (hsc : Scans s) (hp : Placed s) (htc : Touched s) (h : Move s e t) :
    Agreed t where
  other := by
    intro x p hin
    rcases h.marked_cases hm hin with hold | ⟨rfl, r, rest, hw, htmp, hdel⟩
    · exact ha.other x p hold
    · exact (ha.picked hm hs hf htk hsc hp htc hw htmp hdel).1
  half := by
    intro x p hin hheld hnot
    rcases h.marked_cases hm hin with hold | ⟨rfl, r, rest, hw, htmp, hdel⟩
    · -- it was picked before: the other side is told of what happens to the object
      have hsw := (hsc.swapped_of_marked hf hold).2
      have hheld' := hs.held hm h hsw hheld
      have hgen := (hs.fixed h hsw).2
      rw [hgen]
      rcases ha.half x p hold hheld' (fun hmk => hnot (h.marked_mono hm hmk)) with hle | hq
      · exact Or.inl (hle.trans (hg.object_mono h _))
      · rcases hq.move hm h with hq | ⟨heq, m, hem⟩
        · exact Or.inr hq
        · left
          subst heq
          exact hem.touches h hm hg hs hsc hp rfl (ha.other x p hold) hheld'
    · -- it is picked now
      obtain ⟨hne, hhalf, -⟩ := ha.picked hm hs hf htk hsc hp htc hw htmp hdel
      rw [h.collector x.peer_ne] at hheld ⊢
      rcases hhalf hheld with hle | hq
      · exact Or.inl (hle.trans (hg.object_mono h _))
      · rcases hq.move hm h with hq | ⟨heq, -⟩
        · exact Or.inr hq
        · exact absurd (congrArg End.pair heq) hne
  both := by
    intro x p hin hin'
    have hkeep : Quiet s ⟨x.host, p⟩ → Quiet s ⟨!x.host, p⟩ → Quiet t ⟨x.host, p⟩ := by
      intro hq hq'
      rcases hq.move hm h with hq | ⟨heq, -⟩
      · exact hq
      · subst heq
        exact absurd h (hq'.not_move hm)
    rcases h.marked_cases hm hin with hold | ⟨rfl, r, rest, hw, htmp, hdel⟩
    · rcases h.marked_cases hm hin' with hold' | ⟨heq, r, rest, hw, htmp, hdel⟩
      · exact hkeep (ha.both x p hold hold') (ha.both x.peer p hold' (by rwa [End.peer_peer]))
      · subst heq
        have hboth := (ha.picked hm hs hf htk hsc hp htc hw htmp hdel).2.2
        rw [End.peer_peer, End.peer_host, Bool.not_not] at hboth
        exact hkeep (hboth hold).2 (hboth hold).1
    · rw [h.collector x.peer_ne] at hin'
      obtain ⟨hq, hq'⟩ := (ha.picked hm hs hf htk hsc hp htc hw htmp hdel).2.2 hin'
      exact hkeep hq hq'

theorem Agreed.initial : Agreed State.initial where
  other := fun _ _ h => by cases h
  half := fun _ _ h => by cases h
  both := fun _ _ h => by cases h

/-! ## Runs -/

/-- All that holds in a run in which no NOTIFY goes wrong. -/
structure Collecting (s : State) : Prop where
  made : Made s
  gens : Gens s
  swaps : Swaps s
  flushes : Flushes s
  tokens : Tokens s
  scans : Scans s
  placed : Placed s
  touched : Touched s
  agreed : Agreed s

theorem Collecting.move (hs : Collecting s) (h : Move s e t) : Collecting t where
  made := hs.made.move h
  gens := hs.gens.move hs.made h
  swaps := hs.swaps.move hs.made h
  flushes := hs.flushes.move hs.made hs.gens hs.swaps h
  tokens := hs.tokens.move hs.made hs.swaps h
  scans := hs.scans.move hs.made hs.swaps hs.tokens h
  placed := hs.placed.move hs.made hs.swaps hs.tokens hs.scans h
  touched := hs.touched.move hs.made hs.gens hs.swaps hs.scans hs.placed h
  agreed := hs.agreed.move hs.made hs.gens hs.swaps hs.flushes hs.tokens hs.scans hs.placed
    hs.touched h

theorem Collecting.initial : Collecting State.initial where
  made := .initial
  gens := .initial
  swaps := .initial
  flushes := .initial
  tokens := .initial
  scans := .initial
  placed := .initial
  touched := .initial
  agreed := .initial

/-- The hosts in runs of allowed steps. -/
abbrev guarded : System State Act := system.restrict (fun s a => allowed s a = true)

theorem Collecting.reachable (h : Reachable guarded s) : Collecting s := by
  refine Reachable.invariant_restrict Collecting h (fun s hs => ?_) (fun s a t hs ha hstep => ?_)
  · rw [show s = State.initial from hs]
    exact .initial
  · obtain ⟨e, hmove⟩ := move_of_step ha hstep
    exact hs.move hmove

/-- An object is out of reach: nobody on a host has it or works for it, no table has it, no
    collector is to give it back, and no message to it is on its way. -/
structure Gone (s : State) (h : Host) (k : Pair) : Prop where
  asleep : (s.object ⟨h, k⟩).Asleep
  table : k ∉ s.table h
  held : ∀ c, k ∉ (s.collector ⟨h, c⟩).held
  silent : ∀ m ∈ s.channel h, m.dstptr ≠ some k ∧ m.srcptr ≠ some k

/-- What a collector has dropped is in no other place of its host. -/
theorem Collecting.nowhere (hs : Collecting s) {c : End} {k : Pair}
    (hk : k ∈ (s.collector c).dropped) :
    k ∉ s.table c.host ∧ ∀ d, k ∉ (s.collector ⟨c.host, d⟩).held := by
  have hpos : 0 < (s.collector c).dropped.count k := List.count_pos_iff.mpr hk
  have hc : c.pair ∈ s.pairs := by
    by_contra hnew
    have hzero := hs.scans.share_new hs.made hs.swaps (x := ⟨c.host, k⟩) hnew
    rw [State.share] at hzero
    exact Nat.ne_of_gt hpos (Nat.add_eq_zero_iff.mp hzero).2
  have hone : s.places ⟨c.host, k⟩ ≤ 1 := by
    rw [hs.placed.once]
    exact Bool.toNat_le _
  have hshare : s.share ⟨c.host, k⟩ c.pair = (s.collector c).held.count k +
      (s.collector c).dropped.count k := rfl
  rw [State.places, ← List.sum_map_erase (s.share ⟨c.host, k⟩) hc, hshare] at hone
  refine ⟨?_, fun d hd => ?_⟩
  · rw [← List.count_eq_zero]
    simp only at hone
    omega
  · have hheld : 0 < (s.collector ⟨c.host, d⟩).held.count k := List.count_pos_iff.mpr hd
    have hshared : s.share ⟨c.host, k⟩ d = (s.collector ⟨c.host, d⟩).held.count k +
        (s.collector ⟨c.host, d⟩).dropped.count k := rfl
    by_cases hdc : d = c.pair
    · subst hdc
      rw [show (⟨c.host, c.pair⟩ : End) = c from rfl] at hheld
      omega
    · have hin : d ∈ s.pairs.erase c.pair :=
        (List.mem_erase_of_ne hdc).mpr (hs.scans.pair_of_held hs.made hs.swaps hd)
      rw [← List.sum_map_erase (s.share ⟨c.host, k⟩) hin] at hone
      omega

theorem Collecting.gone (hs : Collecting s) {c : End} {k : Pair}
    (hk : k ∈ (s.collector c).dropped) (hq : Quiet s ⟨c.host, k⟩) : Gone s c.host k where
  asleep := hq.asleep
  table := (hs.nowhere hk).1
  held := (hs.nowhere hk).2
  silent := by
    intro m hm
    have hne := hq.channel c.host m hm
    rcases (hs.made.sent c.host m hm).2 with ⟨-, hsrc, hdst⟩ | ⟨-, hsrc | hsrc, hdst, -⟩
    · exact ⟨by simp [hdst], by simpa [hsrc] using hne⟩
    · exact ⟨by simpa [hdst] using hne, by simpa [hsrc] using hne⟩
    · exact ⟨by simpa [hdst] using hne, by simp [hsrc]⟩

/-- What is dropped was picked on both sides, and what both sides picked is quiet. -/
theorem Collecting.quiet_of_dropped (hs : Collecting s) {c : End} {k : Pair}
    (hk : k ∈ (s.collector c).dropped) :
    k ∈ (s.collector c).marked ∧ k ∈ (s.collector c.peer).marked ∧
      Quiet s ⟨c.host, k⟩ ∧ Quiet s ⟨!c.host, k⟩ := by
  have hheard : (s.collector c).heard = true := by
    by_contra hheard
    rw [((hs.scans.ok c).unheard (by simpa using hheard)).1] at hk
    cases hk
  rw [hs.scans.dropped c hheard, List.mem_filter, decide_eq_true_eq] at hk
  exact ⟨hk.1, hk.2, hs.agreed.both c k hk.1 hk.2,
    hs.agreed.both c.peer k hk.2 (by rw [End.peer_peer]; exact hk.1)⟩

/-- What holds of collection at any time: an end that is made is in one place, a collector
    that is done holds nothing, and what a collector has dropped is out of reach on its
    host; the other side has dropped it as well, or will when it reads the answer. -/
structure Safe (s : State) : Prop where
  placed : ∀ x, s.made x = true → s.places x = 1
  done : ∀ c, (s.collector c).complete = true → (s.collector c).held = []
  gone : ∀ c, ∀ k ∈ (s.collector c).dropped, Gone s c.host k
  heard : ∀ c, ∀ k ∈ (s.collector c).dropped, (s.collector c.peer).heard = true →
    k ∈ (s.collector c.peer).dropped
  unheard : ∀ c, ∀ k ∈ (s.collector c).dropped, (s.collector c.peer).heard = false →
    k ∈ (s.collector c.peer).objectsMaybeDead ∧ (s.object ⟨!c.host, k⟩).Asleep

/-- An object and a collector. -/
def object : Pair := ⟨0, false, false⟩
def collector : Pair := ⟨1, true, false⟩

/-- A message of the collector after both tables were taken. -/
def said (body : Body) : Msg :=
  ⟨body, if body.kind = some .answer then some collector else none, some collector,
    collector, 1⟩

/-- The left host makes an object, the right host refers to it or not, and the left host
    gives it up. -/
def makes (right : List Act) : List Act :=
  [.createRemoteObject ⟨false, object⟩, .work ⟨false, object⟩ (.addObject false), .recv true,
    .work ⟨true, object⟩ .construct] ++ right ++
  [.work ⟨true, object⟩ (.addObject true), .recv false,
    .work ⟨false, object⟩ (.message ⟨.createAck, some object, some object, object, 0⟩),
    .work ⟨false, object⟩ (.message ⟨.createAck, some object, some object, object, 0⟩),
    .release ⟨false, object⟩]

/-- A collector is made on both hosts, and both flush. -/
def flushes : List Act :=
  [.createRemoteObject ⟨false, collector⟩, .work ⟨false, collector⟩ (.addObject false),
    .recv true, .work ⟨true, collector⟩ .construct, .work ⟨true, collector⟩ .swap,
    .work ⟨true, collector⟩ .flush, .work ⟨true, collector⟩ (.addObject true), .recv false,
    .work ⟨false, collector⟩ (.message ⟨.createAck, some collector, some collector, collector, 0⟩),
    .work ⟨false, collector⟩ .swap, .work ⟨false, collector⟩ .flush,
    .work ⟨false, collector⟩ (.message ⟨.createAck, some collector, some collector, collector, 0⟩),
    .recv false, .work ⟨false, collector⟩ (.message (said (.notify .FLUSH_MSGS))),
    .recv true, .work ⟨true, collector⟩ (.message (said (.notify .FLUSH_MSGS)))]

/-- Both scan and answer. -/
def scans : List Act :=
  [.recv true, .work ⟨true, collector⟩ (.message (said (.notify .DO_SCAN))),
    .work ⟨true, collector⟩ (.scan []), .work ⟨true, collector⟩ (.scan [some object]),
    .work ⟨true, collector⟩ (.respond [some object]),
    .recv false, .work ⟨false, collector⟩ (.message (said (.notify .DO_SCAN))),
    .work ⟨false, collector⟩ (.scan []), .work ⟨false, collector⟩ (.scan [some object]),
    .work ⟨false, collector⟩ (.scan [some object]),
    .work ⟨false, collector⟩ (.respond [some object])]

/-- Both hear. -/
def hears : List Act :=
  [.recv false, .work ⟨false, collector⟩ (.message (said (.data [some object]))),
    .recv true, .work ⟨true, collector⟩ (.message (said (.data [some object])))]

/-- A NOTIFY does not show: when the right host sends one after its DO_SCAN and gives the
    object up, it drops an object that is still written to. -/
theorem notify_unsafe : ∃ s, Reachable system s ∧
    object ∈ (s.collector ⟨true, collector⟩).dropped ∧
    ∃ m ∈ s.channel true, m.dstptr = some object := by
  obtain ⟨s, hs, hsent⟩ := exists_of_exec_map system
    (fun s => decide (object ∈ (s.collector ⟨true, collector⟩).dropped) &&
      (s.channel true).any (fun m => m.dstptr = some object)) true
    (makes [.retain ⟨true, object⟩] ++ flushes ++
      [.notify ⟨true, object⟩ .FLUSH_MSGS, .release ⟨true, object⟩] ++ scans ++
      [.recv true, .work ⟨true, collector⟩ (.message (said (.data [some object]))),
        .recv false, .send ⟨false, object⟩ []]) rfl (by decide)
  rw [Bool.and_eq_true, decide_eq_true_eq, List.any_eq_true] at hsent
  obtain ⟨hdropped, m, hm, hdst⟩ := hsent
  exact ⟨s, hs, hdropped, m, hm, by simpa using hdst⟩

end PbDistributedGC
