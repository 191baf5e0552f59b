import PetaBricks.DistributedGCStampProofs

/-! # Distributed collection — every phase happens once

    A collector takes its table, flushes, is asked to scan, scans and answers.  Each of
    these is asked for by one item of work or one message, which is used up by it: a
    token.  `Passes` says where the tokens of a collector go in one move; that there is
    never more than one in each half of a cycle (`Tokens`) is arithmetic from there. -/

namespace PbDistributedGC

open State

variable {s t : State} {e : End}

/-! ## Tokens -/

/-- What a message to a collector asks for. -/
inductive Kind where
  | flush
  | scan
  | answer
  deriving DecidableEq

def Body.kind : Body → Option Kind
  | .notify .FLUSH_MSGS => some .flush
  | .notify .DO_SCAN => some .scan
  | .notify .ABORT_GC => some .answer
  | .data _ => some .answer
  | _ => none

/-- Where a token is, as an end sees it. -/
inductive Token where
  | flush
  | scan
  | here (k : Kind)
  | there (k : Kind)
  deriving DecidableEq

def Work.token : Work → Option Token
  | .flush => some .flush
  | .scan _ | .respond _ | .abort => some .scan
  | .message m => m.body.kind.map .here
  | _ => none

def Token.next : Token → Option Token
  | .flush => some (.there .flush)
  | .here .flush => some (.there .scan)
  | .scan => some (.there .answer)
  | _ => none

/-- The messages of a kind on their way to an end, those that wait to be handled included. -/
def State.coming (s : State) (x : End) (k : Kind) : Nat :=
  (s.channel x.host).countP (fun m => m.sender = x.pair ∧ m.body.kind = some k) +
    (s.object x).work.countP (fun w => w.token = some (.here k))

def State.tokens (s : State) (x : End) : Token → Nat
  | .flush => (s.object x).work.countP (fun w => w.token = some .flush)
  | .scan => (s.object x).work.countP (fun w => w.token = some .scan)
  | .here k => s.coming x k
  | .there k => s.coming x.peer k

theorem End.peer_ne (e : End) : e.peer ≠ e := by
  intro heq
  simpa using congrArg End.host heq

theorem tokens_congr (hch : t.channel = s.channel) (hobj : t.object = s.object) (τ : Token) :
    t.tokens e τ = s.tokens e τ := by
  cases τ <;> simp [State.tokens, State.coming, hch, hobj]

theorem setObject_tokens (o : RemoteObject) (τ : Token) :
    (s.setObject e o).tokens e τ + (s.object e).work.countP (fun w => w.token = some τ) =
      s.tokens e τ + o.work.countP (fun w => w.token = some τ) := by
  have hpeer : (s.setObject e o).object e.peer = s.object e.peer :=
    Function.update_of_ne e.peer_ne _ _
  have hnone : ∀ w k, ¬ Work.token w = some (.there k) := by
    intro w k hw
    cases w <;> simp [Work.token] at hw
  cases τ with
  | here k =>
      simp only [State.tokens, State.coming, setObject_channel, setObject_object,
        Function.update_self]
      omega
  | there k =>
      rw [State.tokens, State.tokens, State.coming, State.coming, hpeer]
      simp [hnone]
  | _ =>
      simp only [State.tokens, setObject_object, Function.update_self]
      omega

theorem endWork_tokens {w : Work} (hw : w ∈ (s.object e).work) (τ : Token) :
    (s.endWork e w).tokens e τ + (if w.token = some τ then 1 else 0) = s.tokens e τ := by
  have hset : (s.endWork e w).tokens e τ +
      (s.object e).work.countP (fun w => w.token = some τ) = s.tokens e τ +
        ((s.object e).work.erase w).countP (fun w => w.token = some τ) := setObject_tokens _ τ
  rw [(List.perm_cons_erase hw).countP_eq, List.countP_cons] at hset
  simp only [decide_eq_true_eq] at hset
  omega

theorem addWork_tokens (w : Work) (τ : Token) :
    (s.addWork e w).tokens e τ = s.tokens e τ + if w.token = some τ then 1 else 0 := by
  have hset : (s.addWork e w).tokens e τ +
      (s.object e).work.countP (fun w => w.token = some τ) = s.tokens e τ +
        ((s.object e).work ++ [w]).countP (fun w => w.token = some τ) := setObject_tokens _ τ
  rw [List.countP_append, List.countP_singleton] at hset
  simp only [decide_eq_true_eq] at hset
  omega

theorem sendMsg_tokens (body : Body) (src dst : EncodedPtr) (τ : Token) :
    (s.sendMsg e body src dst).tokens e τ =
      s.tokens e τ + if body.kind.map .there = some τ then 1 else 0 := by
  have hpeer : (s.sendMsg e body src dst).object e.peer = s.object e.peer :=
    sendMsg_object_of_ne _ _ _ _ _ _ e.peer_ne
  have hwork : ((s.sendMsg e body src dst).object e).work = (s.object e).work := by
    rw [sendMsg_object]
    split <;> simp
  have hne : e.host ≠ !e.host := by simp
  cases τ with
  | here k =>
      simp only [State.tokens, State.coming, hwork, sendMsg_channel, Function.update_of_ne hne]
      simp
  | there k =>
      simp only [State.tokens, State.coming, hpeer, sendMsg_channel, End.peer_host,
        Function.update_self, List.countP_append, List.countP_singleton, End.peer_pair]
      simp
      omega
  | _ => simp [State.tokens, hwork]

/-- A move keeps what the collector has done. -/
def SameFlags (s t : State) (e : End) : Prop :=
  (t.collector e).swapped = (s.collector e).swapped ∧
    (t.collector e).asked = (s.collector e).asked ∧
    (t.collector e).heard = (s.collector e).heard

/-- Where the tokens of a collector go in a move of its own. -/
inductive Passes (s t : State) (e : End) : Prop where
  | same (hf : SameFlags s t e) (h : ∀ τ, t.tokens e τ = s.tokens e τ)
  | swap (hs : (s.collector e).swapped = false) (ht : (t.collector e).swapped = true)
      (ha : (t.collector e).asked = (s.collector e).asked)
      (hh : (t.collector e).heard = (s.collector e).heard)
      (h : ∀ τ, t.tokens e τ = s.tokens e τ + if τ = .flush then 1 else 0)
  | pass (a b : Token) (hab : a.next = some b) (hf : SameFlags s t e)
      (h : ∀ τ, t.tokens e τ + (if τ = a then 1 else 0) =
        s.tokens e τ + if τ = b then 1 else 0)
  | ask (hs : (t.collector e).swapped = (s.collector e).swapped)
      (ha : (t.collector e).asked = true)
      (hh : (t.collector e).heard = (s.collector e).heard)
      (h : ∀ τ, t.tokens e τ + (if τ = .here .scan then 1 else 0) =
        s.tokens e τ + if τ = .scan then 1 else 0)
  | hear (hs : (t.collector e).swapped = (s.collector e).swapped)
      (ha : (t.collector e).asked = (s.collector e).asked)
      (hh : (t.collector e).heard = true)
      (h : ∀ τ, t.tokens e τ + (if τ = .here .answer then 1 else 0) = s.tokens e τ)

@[simp] theorem setCollector_tokens (g : Collector) (τ : Token) :
    (s.setCollector e g).tokens e τ = s.tokens e τ := tokens_congr rfl rfl τ

@[simp] theorem finishup_tokens (τ : Token) : (s.finishup e).tokens e τ = s.tokens e τ :=
  tokens_congr rfl rfl τ

@[simp] theorem swapObjects_tokens (τ : Token) : (s.swapObjects e).tokens e τ = s.tokens e τ :=
  tokens_congr rfl rfl τ

@[simp] theorem addObject_tokens (τ : Token) : (s.addObject e).tokens e τ = s.tokens e τ :=
  tokens_congr rfl rfl τ

theorem Passes.of_quiet (hc : t.collector e = s.collector e)
    (h : ∀ τ, t.tokens e τ = s.tokens e τ) : Passes s t e :=
  .same ⟨by rw [hc], by rw [hc], by rw [hc]⟩ h

/-- An end that is not made has no tokens of its own. -/
theorem Made.countP_token (hm : Made s) (hu : s.made e = false) (τ : Token) :
    (s.object e).work.countP (fun w => w.token = some τ) = 0 := by
  rcases hm.unmade e hu with h | h <;> rw [h] <;> rfl

theorem setObject_tokens_of_countP {o : RemoteObject} {τ : Token}
    (h : o.work.countP (fun w => w.token = some τ) =
      (s.object e).work.countP (fun w => w.token = some τ)) :
    (s.setObject e o).tokens e τ = s.tokens e τ := by
  have hset := setObject_tokens (s := s) (e := e) o τ
  omega

/-- Reading a message leaves its token on the way to the end. -/
theorem read_tokens {m : Msg} {rest : List Msg} {w : Work} {o : RemoteObject}
    (hch : s.channel e.host = m :: rest) (hsender : m.sender = e.pair)
    (hw : w.token = m.body.kind.map .here) (ho : o.work = (s.object e).work ++ [w]) (τ : Token) :
    (({ s with channel := Function.update s.channel e.host rest }).setObject e o).tokens e τ =
      s.tokens e τ := by
  have hne : e.peer.host ≠ e.host := by simp
  cases τ with
  | here k =>
      simp only [State.tokens, State.coming, setObject_channel, setObject_object,
        Function.update_self, ho, hch, List.countP_append, List.countP_nil,
        List.countP_cons, hw, hsender, true_and, decide_eq_true_eq, Option.map_eq_some_iff,
        Token.here.injEq, exists_eq_right]
      omega
  | there k =>
      simp only [State.tokens, State.coming, setObject_channel, setObject_object,
        Function.update_of_ne hne, Function.update_of_ne e.peer_ne]
  | _ =>
      simp [State.tokens, ho, hw]

theorem Move.passes (h : Move s e t) (hm : Made s) (hs : Swaps s)
    (he : e.pair.collector = true) : Passes s t e := by
  cases h with
  | createRemoteObject hnew =>
      have hu : s.made e = false := by
        by_contra hmade
        exact hnew (hm.paired e (by simpa using hmade))
      refine .of_quiet (by simp [State.createRemoteObject]) (fun τ => ?_)
      rw [State.createRemoteObject, sendMsg_tokens]
      refine setObject_tokens_of_countP ?_
      rw [hm.countP_token hu τ]
      rfl
  | send ptrs hu => simp [State.usable, he] at hu
  | notify stage hu hb => simp [State.usable, he] at hu
  | retain hc hh => rw [he] at hc; cases hc
  | release hr => exact .of_quiet rfl (fun τ => setObject_tokens_of_countP rfl)
  | read m rest hch hdst =>
      refine .of_quiet rfl (fun τ => read_tokens hch ?_ rfl rfl τ)
      exact hm.sender (by rw [hch]; exact List.mem_cons_self) hdst
  | readCreate m rest hch hdst hbody hsrc =>
      refine .of_quiet rfl (fun τ => read_tokens hch ?_ (by rw [hbody]; rfl) rfl τ)
      rcases (hm.sent e.host m (by rw [hch]; exact List.mem_cons_self)).2 with h | h
      · exact (Option.some.inj (hsrc.symm.trans h.2.1)).symm
      · exact absurd hbody h.1
  | construct hw =>
      have hu := hm.unmade_of_construct hw
      refine .of_quiet (by rw [construct_collector]) (fun τ => ?_)
      have hset : ({ s with made := Function.update s.made e true }.setObject e
          ⟨true, some e.pair, 0, s.currentGen e.host, [.swap, .addObject true]⟩).tokens e τ =
            s.tokens e τ := by
        refine setObject_tokens_of_countP ?_
        rw [hm.countP_token hu τ]
        rfl
      rw [State.construct]
      simp only [if_pos he]
      split
      · exact hset
      · rw [sendMsg_tokens]
        exact hset
  | openWith m hw hc hsrc =>
      refine .of_quiet rfl (fun τ => setObject_tokens_of_countP ?_)
      simp only
      split
      · exact List.countP_cons_of_neg (by simp [Work.token])
      · rfl
  | skip m hw hbody =>
      refine .of_quiet rfl (fun τ => ?_)
      have hend := endWork_tokens hw τ
      rcases hbody he with hb | hb <;> simpa [Work.token, hb, Body.kind] using hend
  | flushed m hw hcan hc he hbody hb =>
      refine .pass (.here .flush) (.there .scan) rfl ?_ (fun τ => ?_)
      · simp [SameFlags, State.remoteNotify, State.endWork]
      · rw [State.remoteNotify, sendMsg_tokens, ← endWork_tokens hw τ]
        simp only [Work.token, hbody, Body.kind, Option.map_some, Option.some.injEq,
          eq_comm (b := τ)]
        omega
  | beginScan m hw hcan hc he hbody =>
      refine .ask ?_ ?_ ?_ (fun τ => ?_)
      · simp [State.beginScan, State.addWork, State.endWork]
      · simp [State.beginScan, State.addWork, State.endWork]
      · simp [State.beginScan, State.addWork, State.endWork]
      · rw [State.beginScan, addWork_tokens, setCollector_tokens, ← endWork_tokens hw τ]
        simp only [Work.token, hbody, Body.kind, Option.map_some, Option.some.injEq,
          eq_comm (b := τ)]
        omega
  | aborted m hw hcan hc he hbody =>
      refine .hear ?_ ?_ ?_ (fun τ => ?_)
      · simp [State.onNotify, State.finishup, State.endWork]
      · simp [State.onNotify, State.finishup, State.endWork]
      · simp [State.onNotify, State.finishup, State.endWork]
      · have hend := endWork_tokens hw τ
        simp only [Work.token, hbody, Body.kind, Option.map_some, Option.some.injEq,
          eq_comm (b := τ)] at hend
        rw [State.onNotify, finishup_tokens, setCollector_tokens, hend]
  | onRecv m ptrs hw hcan hc he hbody =>
      refine .hear ?_ ?_ ?_ (fun τ => ?_)
      · simp [State.onRecv, State.finishup, State.endWork]
      · simp [State.onRecv, State.finishup, State.endWork]
      · simp [State.onRecv, State.finishup, State.endWork]
      · have hend := endWork_tokens hw τ
        simp only [Work.token, hbody, Body.kind, Option.map_some, Option.some.injEq,
          eq_comm (b := τ)] at hend
        rw [State.onRecv, finishup_tokens, setCollector_tokens, hend]
  | swap hw =>
      refine .swap (hs.unswapped hw) ?_ ?_ ?_ (fun τ => ?_)
      · simp [State.swapObjects, State.addWork, State.endWork]
      · simp [State.swapObjects, State.addWork, State.endWork]
      · simp [State.swapObjects, State.addWork, State.endWork]
      · rw [addWork_tokens, swapObjects_tokens, ← endWork_tokens hw τ]
        simp only [Work.token, Option.some.injEq, eq_comm (b := τ), reduceCtorEq, if_false]
        omega
  | flush hw hb =>
      refine .pass .flush (.there .flush) rfl ?_ (fun τ => ?_)
      · simp [SameFlags, State.remoteNotify, State.endWork]
      · rw [State.remoteNotify, sendMsg_tokens, ← endWork_tokens hw τ]
        simp only [Work.token, Body.kind, Option.map_some, Option.some.injEq, eq_comm (b := τ)]
        omega
  | scan response hw =>
      have hend : ∀ (w : Work) τ, w.token = some .scan →
          ((s.endWork e (.scan response)).addWork e w).tokens e τ = s.tokens e τ := by
        intro w τ hw'
        rw [addWork_tokens, ← endWork_tokens hw τ, hw']
        rfl
      refine .same ?_ (fun τ => ?_)
      · rw [SameFlags, State.scanNext]
        cases (s.collector e).tmp with
        | nil => simp [addWork, endWork]
        | cons k rest =>
            simp only
            split <;> simp
      · rw [State.scanNext]
        cases (s.collector e).tmp with
        | nil => exact hend _ τ (by split <;> rfl)
        | cons k rest =>
            simp only
            split
            · rw [setCollector_tokens]
              exact hend _ τ rfl
            · rw [setCollector_tokens]
  | respond response hw =>
      refine .pass .scan (.there .answer) rfl ?_ (fun τ => ?_)
      · simp [SameFlags, State.sendData, State.endWork]
      · rw [State.sendData, sendMsg_tokens, ← endWork_tokens hw τ]
        simp only [Work.token, Body.kind, Option.map_some, Option.some.injEq, eq_comm (b := τ)]
        omega
  | abort hw hb =>
      refine .pass .scan (.there .answer) rfl ?_ (fun τ => ?_)
      · simp [SameFlags, State.remoteNotify, State.finishup, State.endWork]
      · rw [finishup_tokens, State.remoteNotify, sendMsg_tokens, ← endWork_tokens hw τ]
        simp only [Work.token, Body.kind, Option.map_some, Option.some.injEq, eq_comm (b := τ)]
        omega
  | addObject received hw =>
      refine .of_quiet rfl (fun τ => ?_)
      have hend := endWork_tokens hw τ
      simp only [Work.token, reduceCtorEq, if_false, Nat.add_zero] at hend
      rw [addObject_tokens, hend]

/-! ## Every phase happens once -/

/-- A move leaves the messages between the ends of another object. -/
theorem Move.coming_of_ne (h : Move s e t) (hm : Made s) {x : End} (hx : x.pair ≠ e.pair)
    (k : Kind) : t.coming x k = s.coming x k := by
  have hobj : t.object x = s.object x := h.object (fun heq => hx (heq ▸ rfl))
  rw [State.coming, State.coming, hobj]
  congr 1
  rcases h.channels hm with hsame | ⟨m, hm', hch⟩ | ⟨m, rest, hm', hold, hch⟩
  · rw [hsame]
  · by_cases hh : x.host = !e.host
    · rw [hch, hh, Function.update_self, List.countP_append]
      simp [hm'.sender, Ne.symm hx]
    · rw [hch, Function.update_of_ne hh]
  · by_cases hh : x.host = e.host
    · rw [hch, hh, Function.update_self, hold, List.countP_cons_of_neg]
      simp [(hm.taken hold hm').1, Ne.symm hx]
    · rw [hch, Function.update_of_ne hh]

theorem Move.tokens_of_ne (h : Move s e t) (hm : Made s) {x : End} (hx : x.pair ≠ e.pair)
    (τ : Token) : t.tokens x τ = s.tokens x τ := by
  have hobj : t.object x = s.object x := h.object (fun heq => hx (heq ▸ rfl))
  cases τ with
  | here k => exact h.coming_of_ne hm hx k
  | there k => exact h.coming_of_ne (x := x.peer) hm hx k
  | _ => simp only [State.tokens, hobj]

theorem tokens_peer_there (k : Kind) : s.tokens e.peer (.there k) = s.tokens e (.here k) := by
  rw [State.tokens, State.tokens, End.peer_peer]

theorem tokens_peer_here (k : Kind) : s.tokens e.peer (.here k) = s.tokens e (.there k) := rfl

theorem End.eq_or_peer {x : End} (h : x.pair = e.pair) : x = e ∨ x = e.peer := by
  rcases x with ⟨hx, k⟩
  rcases e with ⟨he, k'⟩
  subst h
  cases hx <;> cases he <;> simp [End.peer]

/-- A collector takes its table, flushes and is asked to scan once, and what it finds is
    answered and heard once. -/
structure Tokens (s : State) : Prop where
  first : ∀ x, x.pair.collector = true →
    s.tokens x .flush + s.tokens x (.there .flush) + s.tokens x (.here .scan) +
      (s.collector x).asked.toNat ≤ (s.collector x).swapped.toNat
  second : ∀ x, x.pair.collector = true →
    s.tokens x .scan + s.tokens x (.there .answer) + (s.collector x.peer).heard.toNat ≤
      (s.collector x).asked.toNat

/-- What a move of an end does to its own half of the law. -/
theorem Passes.first (h : Passes s t e)
    (hold : s.tokens e .flush + s.tokens e (.there .flush) + s.tokens e (.here .scan) +
      (s.collector e).asked.toNat ≤ (s.collector e).swapped.toNat) :
    t.tokens e .flush + t.tokens e (.there .flush) + t.tokens e (.here .scan) +
      (t.collector e).asked.toNat ≤ (t.collector e).swapped.toNat := by
  cases h with
  | same hf h =>
      rw [h, h, h, hf.1, hf.2.1]
      exact hold
  | swap hs ht ha hh h =>
      have h1 := h .flush
      have h2 := h (.there .flush)
      have h3 := h (.here .scan)
      simp only [if_true, reduceCtorEq, if_false] at h1 h2 h3
      rw [hs, Bool.toNat_false] at hold
      rw [ha, ht, Bool.toNat_true]
      omega
  | pass a b hab hf h =>
      have h1 := h .flush
      have h2 := h (.there .flush)
      have h3 := h (.here .scan)
      rw [hf.1, hf.2.1]
      cases a with
      | flush => cases hab; simp at h1 h2 h3; omega
      | scan => cases hab; simp at h1 h2 h3; omega
      | here k => cases k <;> cases hab; simp at h1 h2 h3; omega
      | there k => cases hab
  | ask hs ha hh h =>
      have h1 := h .flush
      have h2 := h (.there .flush)
      have h3 := h (.here .scan)
      have hle := Bool.toNat_le (s.collector e).swapped
      simp at h1 h2 h3
      rw [ha, hs, Bool.toNat_true]
      omega
  | hear hs ha hh h =>
      have h1 := h .flush
      have h2 := h (.there .flush)
      have h3 := h (.here .scan)
      simp at h1 h2 h3
      rw [ha, hs]
      omega

/-- What a move of an end does to the half of the law that is its peer's. -/
theorem Passes.first_peer (h : Passes s t e) :
    t.tokens e (.here .flush) + t.tokens e (.there .scan) ≤
      s.tokens e (.here .flush) + s.tokens e (.there .scan) := by
  cases h with
  | same hf h => rw [h, h]
  | pass a b hab hf h =>
      have h1 := h (.here .flush)
      have h2 := h (.there .scan)
      cases a with
      | flush => cases hab; simp at h1 h2; omega
      | scan => cases hab; simp at h1 h2; omega
      | here k => cases k <;> cases hab; simp at h1 h2; omega
      | there k => cases hab
  | swap hs ht ha hh h =>
      have h1 := h (.here .flush)
      have h2 := h (.there .scan)
      simp at h1 h2
      omega
  | ask hs ha hh h =>
      have h1 := h (.here .flush)
      have h2 := h (.there .scan)
      simp at h1 h2
      omega
  | hear hs ha hh h =>
      have h1 := h (.here .flush)
      have h2 := h (.there .scan)
      simp at h1 h2
      omega

theorem Passes.second (h : Passes s t e) {heard : Nat}
    (hfirst : s.tokens e (.here .scan) + (s.collector e).asked.toNat ≤ 1)
    (hold : s.tokens e .scan + s.tokens e (.there .answer) + heard ≤
      (s.collector e).asked.toNat) :
    t.tokens e .scan + t.tokens e (.there .answer) + heard ≤ (t.collector e).asked.toNat := by
  cases h with
  | same hf h =>
      rw [h, h, hf.2.1]
      exact hold
  | swap hs ht ha hh h =>
      have h1 := h .scan
      have h2 := h (.there .answer)
      simp at h1 h2
      rw [ha]
      omega
  | pass a b hab hf h =>
      have h1 := h .scan
      have h2 := h (.there .answer)
      rw [hf.2.1]
      cases a with
      | flush => cases hab; simp at h1 h2; omega
      | scan => cases hab; simp at h1 h2; omega
      | here k => cases k <;> cases hab; simp at h1 h2; omega
      | there k => cases hab
  | ask hs ha hh h =>
      have h1 := h .scan
      have h2 := h (.there .answer)
      have h3 := h (.here .scan)
      simp at h1 h2 h3
      rw [ha, Bool.toNat_true]
      omega
  | hear hs ha hh h =>
      have h1 := h .scan
      have h2 := h (.there .answer)
      simp at h1 h2
      rw [ha]
      omega

theorem Passes.second_peer (h : Passes s t e) :
    t.tokens e (.here .answer) + (t.collector e).heard.toNat ≤
      s.tokens e (.here .answer) + (s.collector e).heard.toNat := by
  cases h with
  | same hf h => rw [h, hf.2.2]
  | swap hs ht ha hh h =>
      have h1 := h (.here .answer)
      simp at h1
      rw [hh]
      omega
  | pass a b hab hf h =>
      have h1 := h (.here .answer)
      rw [hf.2.2]
      cases a with
      | flush => cases hab; simp at h1; omega
      | scan => cases hab; simp at h1; omega
      | here k => cases k <;> cases hab; simp at h1; omega
      | there k => cases hab
  | ask hs ha hh h =>
      have h1 := h (.here .answer)
      simp at h1
      rw [hh]
      omega
  | hear hs ha hh h =>
      have h1 := h (.here .answer)
      simp at h1
      rw [hh, Bool.toNat_true]
      omega

theorem Tokens.move (ht : Tokens s) (hm : Made s) (hs : Swaps s) (h : Move s e t) :
    Tokens t where
  first := by
    intro x hcol
    have hold := ht.first x hcol
    by_cases hx : x.pair = e.pair
    · rw [hx] at hcol
      have hpass := h.passes hm hs hcol
      rcases End.eq_or_peer hx with rfl | rfl
      · exact hpass.first hold
      · have hle := hpass.first_peer
        have hflush : t.tokens e.peer .flush = s.tokens e.peer .flush := by
          simp only [State.tokens, h.object e.peer_ne]
        rw [tokens_peer_there, tokens_peer_here] at hold ⊢
        rw [hflush, h.collector e.peer_ne]
        omega
    · rw [h.tokens_of_ne hm hx, h.tokens_of_ne hm hx, h.tokens_of_ne hm hx,
        h.collector (fun heq => hx (heq ▸ rfl))]
      exact hold
  second := by
    intro x hcol
    have hold := ht.second x hcol
    by_cases hx : x.pair = e.pair
    · rw [hx] at hcol
      have hpass := h.passes hm hs hcol
      rcases End.eq_or_peer hx with rfl | rfl
      · rw [h.collector x.peer_ne]
        refine hpass.second ?_ hold
        have hfirst := ht.first x hcol
        have hle := Bool.toNat_le (s.collector x).swapped
        omega
      · have hle := hpass.second_peer
        have hscan : t.tokens e.peer .scan = s.tokens e.peer .scan := by
          simp only [State.tokens, h.object e.peer_ne]
        rw [tokens_peer_there, End.peer_peer] at hold ⊢
        rw [hscan, h.collector e.peer_ne]
        omega
    · have hne : x ≠ e := fun heq => hx (heq ▸ rfl)
      have hne' : x.peer ≠ e := fun heq => hx (heq ▸ rfl)
      rw [h.tokens_of_ne hm hx, h.tokens_of_ne hm hx, h.collector hne, h.collector hne']
      exact hold

theorem Tokens.initial : Tokens State.initial where
  first := fun _ _ => Nat.le_refl 0
  second := fun _ _ => Nat.le_refl 0

end PbDistributedGC
