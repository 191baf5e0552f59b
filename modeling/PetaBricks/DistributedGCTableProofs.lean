import PetaBricks.DistributedGCScanProofs
import Mathlib

/-! # Distributed collection — every object is in one place

    An end that is made is in the table of its host, or a collector holds or has dropped
    it, or a thread is about to put it into the table, and in one of these places only
    (`Placed`). -/

namespace PbDistributedGC

open State

variable {s t : State} {e : End}

def Work.adds : Work → Bool
  | .addObject _ => true
  | _ => false

/-- How often a collector of its host holds an end or has dropped it. -/
def State.share (s : State) (x : End) (c : Pair) : Nat :=
  (s.collector ⟨x.host, c⟩).held.count x.pair + (s.collector ⟨x.host, c⟩).dropped.count x.pair

def State.adds (s : State) (x : End) : Nat := (s.object x).work.countP Work.adds

/-- The places of an end. -/
def State.places (s : State) (x : End) : Nat :=
  (s.table x.host).count x.pair + (s.pairs.map (s.share x)).sum + s.adds x

theorem Move.table_of_ne (h : Move s e t) {x : Host} (hx : x ≠ e.host) :
    t.table x = s.table x := by
  cases h with
  | scan r hw => rw [(scanNext_frame s e r).2.1]
  | construct hw =>
      rw [State.construct]
      split <;> simp
  | _ =>
      simp [State.createRemoteObject, State.sendData, State.remoteNotify, State.addWork,
        State.endWork, State.openWith, State.beginScan, State.onNotify, State.onRecv,
        State.finishup, State.swapObjects, State.addObject, Function.update_of_ne hx]

theorem countP_erase_of_not {w : Work} {l : List Work} (hw : w.adds = false) :
    (l.erase w).countP Work.adds = l.countP Work.adds := by
  by_cases hin : w ∈ l
  · rw [(List.perm_cons_erase hin).countP_eq, List.countP_cons_of_neg (by simp [hw])]
  · rw [List.erase_of_not_mem hin]

/-- What a move does to the threads that will put the end into the table. -/
theorem Move.adds (h : Move s e t) (hm : Made s) :
    (∃ received, Work.addObject received ∈ (s.object e).work ∧
      t = (s.endWork e (.addObject received)).addObject e) ∨
    t.adds e + (s.made e).toNat = s.adds e + (t.made e).toNat := by
  cases h with
  | addObject received hw => exact Or.inl ⟨received, hw, rfl⟩
  | createRemoteObject hnew =>
      right
      have hu : s.made e = false := by
        by_contra hmade
        exact hnew (hm.paired e (by simpa using hmade))
      have hz : s.adds e = 0 := by
        rcases hm.unmade e hu with h | h <;> rw [State.adds, h] <;> rfl
      rw [hz, hu]
      simp [State.adds, State.createRemoteObject, sendMsg_object, Work.adds]
  | construct hw =>
      right
      have hu := hm.unmade_of_construct hw
      have hz : s.adds e = 0 := by
        rcases hm.unmade e hu with h | h <;> rw [State.adds, h] <;> rfl
      have hmade : (s.construct e).made e = true := by
        rw [State.construct]
        split <;> simp
      rw [hz, hu, hmade, State.adds, construct_object]
      split <;> rfl
  | openWith m hw hc hsrc =>
      right
      simp only [State.adds, State.openWith, setObject_object, Function.update_self,
        setObject_made]
      split <;> simp [Work.adds]
  | scan r hw =>
      right
      have hend : ∀ w : Work, w.adds = false →
          (((s.object e).work.erase (.scan r)) ++ [w]).countP Work.adds = s.adds e := by
        intro w hw'
        rw [List.countP_append, countP_erase_of_not rfl, List.countP_singleton, hw']
        rfl
      rw [(scanNext_frame s e r).2.2.2.1]
      congr 1
      rw [State.adds, State.scanNext]
      cases (s.collector e).tmp with
      | nil =>
          simp only [addWork, endWork, setObject_object, Function.update_self]
          exact hend _ (by split <;> rfl)
      | cons k rest =>
          simp only
          split
          · simp only [addWork, endWork, setObject_object, setCollector_object,
              Function.update_self]
            exact hend _ rfl
          · rfl
  | _ =>
      right
      simp [State.adds, State.sendData, State.remoteNotify, State.addWork,
        State.endWork, State.beginScan, State.onNotify, State.onRecv,
        State.finishup, State.swapObjects, sendMsg_object, Work.adds]
        <;> exact countP_erase_of_not rfl

/-- What a move does to the objects of its host that are in the table, held or dropped. -/
theorem Move.shares (h : Move s e t) (ht : Tokens s) (hsc : Scans s) (k : Pair) :
    (∃ received, Work.addObject received ∈ (s.object e).work ∧
      t = (s.endWork e (.addObject received)).addObject e) ∨
    (t.table e.host).count k + t.share ⟨e.host, k⟩ e.pair =
      (s.table e.host).count k + s.share ⟨e.host, k⟩ e.pair := by
  have hsame : t.table = s.table → t.collector = s.collector →
      (t.table e.host).count k + t.share ⟨e.host, k⟩ e.pair =
        (s.table e.host).count k + s.share ⟨e.host, k⟩ e.pair := by
    intro htable hcol
    rw [State.share, State.share, htable, hcol]
  have he : (⟨e.host, e.pair⟩ : End) = e := rfl
  cases h with
  | addObject received hw => exact Or.inl ⟨received, hw, rfl⟩
  | construct hw =>
      refine Or.inr (hsame ?_ (construct_collector s e))
      rw [State.construct]
      split <;> simp
  | swap hw =>
      right
      simp only [State.share, State.swapObjects, State.addWork, State.endWork, Collector.held,
        setObject_table, setObject_collector, setCollector_table, setCollector_collector,
        Function.update_self, List.count_append, he]
      omega
  | beginScan m hw hcan hc he' hbody =>
      right
      have htmp := ((hsc.ok e).unasked (ht.of_ask hw hbody he').1).1
      simp [State.share, State.beginScan, State.addWork, State.endWork, Collector.held, he, htmp]
  | scan r hw =>
      right
      rw [(scanNext_frame s e r).2.1, State.share, State.share, State.scanNext]
      cases htmp : (s.collector e).tmp with
      | nil => rfl
      | cons k' rest =>
          simp only
          split <;>
            simp [Collector.held, he, htmp, List.count_cons] <;> omega
  | abort hw hb =>
      right
      simp [State.share, State.remoteNotify, State.endWork, State.finishup, Collector.held, he]
      omega
  | aborted m hw hcan hc he' hbody =>
      right
      simp [State.share, State.onNotify, State.endWork, State.finishup, Collector.held, he]
      omega
  | onRecv m ptrs hw hcan hc he' hbody =>
      right
      simp [State.share, State.onRecv, State.endWork, State.finishup, Collector.held, he]
      have hperm := (List.filter_append_perm (fun k => decide (some k ∈ ptrs))
        (s.collector e).objectsMaybeDead).count_eq k
      rw [List.count_append] at hperm
      omega
  | _ =>
      right
      refine hsame ?_ ?_ <;> 
      simp [State.createRemoteObject, State.sendData, State.remoteNotify, State.addWork,
        State.endWork, State.openWith]

/-! ## The law -/

/-- An end that is made is in one place, an end that is not made is nowhere. -/
structure Placed (s : State) : Prop where
  nodup : s.pairs.Nodup
  once : ∀ x, s.places x = (s.made x).toNat

/-- Somebody has named an end there is something to say of. -/
theorem Made.pair_mem (hm : Made s) (h : s.object e ≠ .blank) : e.pair ∈ s.pairs := by
  cases hmade : s.made e with
  | true => exact hm.paired e hmade
  | false =>
      rcases hm.unmade e hmade with hblank | hrequested
      · exact absurd hblank h
      · refine hm.paired e.peer (hm.work e .construct ?_)
        rw [hrequested]
        exact List.mem_cons_self

/-- A move is made for a pair that has been named, or names it. -/
theorem Move.pair (h : Move s e t) (hm : Made s) :
    t.pairs = s.pairs ∧ e.pair ∈ s.pairs ∨ t.pairs = e.pair :: s.pairs ∧ e.pair ∉ s.pairs := by
  have hcreated : (s.object e).created = true → e.pair ∈ s.pairs := by
    refine fun hc => hm.pair_mem (fun hb => ?_)
    rw [hb] at hc
    cases hc
  have hwork : ∀ {w}, w ∈ (s.object e).work → e.pair ∈ s.pairs := by
    refine fun hw => hm.pair_mem (fun hb => ?_)
    rw [hb] at hw
    cases hw
  have hsent : ∀ m ∈ s.channel e.host, m.sender = e.pair → e.pair ∈ s.pairs := by
    intro m hin hsender
    have hsent := (hm.sent e.host m hin).1
    rw [hsender] at hsent
    exact hm.paired ⟨!e.host, e.pair⟩ hsent
  cases h with
  | createRemoteObject hnew => exact Or.inr ⟨by simp [State.createRemoteObject], hnew⟩
  | send ptrs hu =>
      rw [State.usable, Bool.and_eq_true, Bool.and_eq_true] at hu
      exact Or.inl ⟨by simp [State.sendData], hcreated hu.1.2⟩
  | notify stage hu hb =>
      rw [State.usable, Bool.and_eq_true, Bool.and_eq_true] at hu
      exact Or.inl ⟨by simp [State.remoteNotify], hcreated hu.1.2⟩
  | retain hc hh =>
      refine Or.inl ⟨rfl, hm.pair_mem (fun hb => ?_)⟩
      rw [hb] at hh
      cases hh
  | release hr =>
      refine Or.inl ⟨rfl, hm.pair_mem (fun hb => ?_)⟩
      rw [hb] at hr
      cases hr
  | read m rest hch hdst =>
      have hin : m ∈ s.channel e.host := by rw [hch]; exact List.mem_cons_self
      exact Or.inl ⟨rfl, hsent m hin (hm.sender hin hdst)⟩
  | readCreate m rest hch hdst hbody hsrc =>
      have hin : m ∈ s.channel e.host := by rw [hch]; exact List.mem_cons_self
      refine Or.inl ⟨rfl, hsent m hin ?_⟩
      rcases (hm.sent e.host m hin).2 with h | h
      · exact (Option.some.inj (hsrc.symm.trans h.2.1)).symm
      · exact absurd hbody h.1
  | construct hw =>
      refine Or.inl ⟨?_, hwork hw⟩
      rw [State.construct]
      split <;> simp
  | scan r hw => exact Or.inl ⟨(scanNext_frame s e r).2.2.2.2.1, hwork hw⟩
  | openWith m hw => exact Or.inl ⟨rfl, hwork hw⟩
  | skip m hw => exact Or.inl ⟨rfl, hwork hw⟩
  | flushed m hw => exact Or.inl ⟨by simp [State.remoteNotify, State.endWork], hwork hw⟩
  | beginScan m hw => exact Or.inl ⟨rfl, hwork hw⟩
  | aborted m hw => exact Or.inl ⟨rfl, hwork hw⟩
  | onRecv m ptrs hw => exact Or.inl ⟨rfl, hwork hw⟩
  | swap hw => exact Or.inl ⟨rfl, hwork hw⟩
  | flush hw => exact Or.inl ⟨by simp [State.remoteNotify, State.endWork], hwork hw⟩
  | respond r hw => exact Or.inl ⟨by simp [State.sendData, State.endWork], hwork hw⟩
  | abort hw =>
      exact Or.inl ⟨by simp [State.remoteNotify, State.finishup, State.endWork], hwork hw⟩
  | addObject received hw => exact Or.inl ⟨rfl, hwork hw⟩

/-- A collector nobody has named has taken nothing. -/
theorem Scans.share_new (hsc : Scans s) (hm : Made s) (hs : Swaps s) {x : End} {c : Pair}
    (hc : c ∉ s.pairs) : s.share x c = 0 := by
  have hcreated : (s.object ⟨x.host, c⟩).created = false := by
    by_contra hcr
    exact hc (hm.paired ⟨x.host, c⟩ (hm.made (Or.inl (by simpa using hcr))))
  have hone := hs ⟨x.host, c⟩
  rw [hcreated, if_neg (by simp)] at hone
  have hsw : (s.collector ⟨x.host, c⟩).swapped = false := by
    cases hsw : (s.collector ⟨x.host, c⟩).swapped with
    | false => rfl
    | true => rw [hsw, Bool.toNat_true] at hone; omega
  obtain ⟨hheld, hdropped, -⟩ := (hsc.ok ⟨x.host, c⟩).unswapped hsw
  rw [State.share, hheld, hdropped]
  rfl

/-- The shares of all collectors change as the one of the collector that moves. -/
theorem Placed.sum_shares (hp : Placed s) (hm : Made s) (hs : Swaps s) (hsc : Scans s)
    (h : Move s e t) (x : End) (hshare : e.pair ∉ s.pairs → t.share x e.pair = 0) :
    (t.pairs.map (t.share x)).sum + s.share x e.pair =
      (s.pairs.map (s.share x)).sum + t.share x e.pair := by
  have hother : ∀ c, c ≠ e.pair → t.share x c = s.share x c := by
    intro c hc
    rw [State.share, State.share, h.collector (fun heq => hc (congrArg End.pair heq))]
  rcases h.pair hm with ⟨hpairs, hin⟩ | ⟨hpairs, hnew⟩
  · rw [hpairs, ← List.sum_map_erase (t.share x) hin, ← List.sum_map_erase (s.share x) hin]
    have hmap : (s.pairs.erase e.pair).map (t.share x) =
        (s.pairs.erase e.pair).map (s.share x) := by
      refine List.map_congr_left (fun c hc => hother c ?_)
      exact ((List.Nodup.mem_erase_iff hp.nodup).mp hc).1
    rw [hmap]
    omega
  · rw [hpairs, List.map_cons, List.sum_cons, hshare hnew, hsc.share_new hm hs hnew]
    have hmap : s.pairs.map (t.share x) = s.pairs.map (s.share x) :=
      List.map_congr_left (fun c hc => hother c (fun heq => hnew (heq ▸ hc)))
    rw [hmap]
    omega

theorem Move.collector_new (h : Move s e t) (hm : Made s) (hnew : e.pair ∉ s.pairs) :
    t.collector e = s.collector e := by
  have hnone : ∀ {w}, w ∉ (s.object e).work := by
    refine fun hw => hnew (hm.pair_mem (fun hb => ?_))
    rw [hb] at hw
    cases hw
  rcases h.collects hm with ⟨heq, -, -⟩ | ⟨hw, -, -⟩ | ⟨m, hw, -, -, -, -, -⟩ |
    ⟨r, k, rest, hw, -, -, -, -⟩ | ⟨r, k, rest, hw, -, -, -⟩ | ⟨r, hw, -, -, -⟩ |
    ⟨hw, -, -⟩ | ⟨m, hw, -, -, -, -, -, -⟩ | ⟨m, ptrs, hw, -, -, -, -, -, -⟩
  · exact heq
  all_goals exact absurd hw hnone

theorem Move.share_of_host (h : Move s e t) {x : End} (hx : x.host ≠ e.host) (c : Pair) :
    t.share x c = s.share x c := by
  have hne : (⟨x.host, c⟩ : End) ≠ e := by
    rintro rfl
    exact hx rfl
  rw [State.share, State.share, h.collector hne]

/-- The thread that made an object puts it into the table. -/
theorem addObject_places {received : Bool} (hw : Work.addObject received ∈ (s.object e).work)
    (x : End) : ((s.endWork e (.addObject received)).addObject e).places x = s.places x := by
  have hshare : ((s.endWork e (.addObject received)).addObject e).share x = s.share x := rfl
  have hadds : s.adds e =
      ((s.object e).work.erase (.addObject received)).countP Work.adds + 1 := by
    rw [State.adds, (List.perm_cons_erase hw).countP_eq, List.countP_cons_of_pos rfl]
  simp only [State.places, hshare]
  by_cases hx : x = e
  · subst hx
    rw [hadds]
    simp [State.adds, State.addObject, State.endWork]
    omega
  · by_cases hh : x.host = e.host
    · have hpair : x.pair ≠ e.pair := by
        intro hp
        refine hx ?_
        cases x
        cases e
        simp_all
      simp [State.adds, State.addObject, State.endWork, Function.update_of_ne hx, hh,
        Ne.symm hpair]
    · simp [State.adds, State.addObject, State.endWork, Function.update_of_ne hx,
        Function.update_of_ne hh]

theorem Placed.move (hp : Placed s) (hm : Made s) (hs : Swaps s) (ht : Tokens s) (hsc : Scans s)
    (h : Move s e t) : Placed t where
  nodup := by
    rcases h.pair hm with ⟨hpairs, -⟩ | ⟨hpairs, hnew⟩
    · rw [hpairs]
      exact hp.nodup
    · rw [hpairs]
      exact List.nodup_cons.mpr ⟨hnew, hp.nodup⟩
  once := by
    intro x
    have hold := hp.once x
    by_cases hadd : ∃ received, Work.addObject received ∈ (s.object e).work ∧
        t = (s.endWork e (.addObject received)).addObject e
    · obtain ⟨received, hw, rfl⟩ := hadd
      rw [addObject_places hw, hold]
      rfl
    have hsum := hp.sum_shares hm hs hsc h x (fun hnew => by
      have hzero := hsc.share_new hm hs (x := x) hnew
      by_cases hx : x.host = e.host
      · rw [State.share, hx] at hzero ⊢
        rw [h.collector_new hm hnew]
        exact hzero
      · rw [h.share_of_host hx, hzero])
    rw [State.places] at hold ⊢
    by_cases hx : x.host = e.host
    · have hshares : (t.table x.host).count x.pair + t.share x e.pair =
          (s.table x.host).count x.pair + s.share x e.pair := by
        have heq := (h.shares ht hsc x.pair).resolve_left hadd
        rw [← hx] at heq
        exact heq
      by_cases hxe : x = e
      · subst hxe
        have hadds := (h.adds hm).resolve_left hadd
        omega
      · have hsame : t.adds x = s.adds x := by rw [State.adds, State.adds, h.object hxe]
        rw [h.made hxe]
        omega
    · have hne : x ≠ e := fun heq => hx (congrArg End.host heq)
      have hsame : t.adds x = s.adds x := by rw [State.adds, State.adds, h.object hne]
      have hshare := h.share_of_host hx e.pair
      rw [h.table_of_ne hx, h.made hne]
      omega

theorem Placed.initial : Placed State.initial where
  nodup := List.nodup_nil
  once := fun _ => rfl

end PbDistributedGC
