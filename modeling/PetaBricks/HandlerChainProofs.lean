import PetaBricks.TransitionProofs
import Mathlib.Logic.Function.Basic
import Mathlib.Data.List.Basic

/-!
# Handler chains — where a migrated region lives, and path compression

A `RegionHandler` holds raw data, split data, or a reference to the handler of another process.
`RegionHandler::updateHandlerChain` asks along the references for the handler that holds the
data, and replaces its own reference by the data itself or by a direct reference.

  * `Chain` follows the references to the owner, hop by hop;
  * the message makes one hop for each reference, so the reply names the owner and the length
    of the chain (`processUpdateHandlerChainMsg_chain`);
  * redirecting a handler to the owner of its chain changes no cell it designates, nor that of
    any other handler (`cellOf_redirect`).

Every address belongs to a process.  `new` is given the address it returns.
-/

namespace PbHandlerChain

abbrev HostPid := Nat

abbrev EncodedPtr := Nat

/-- A handler, by the process it lives in and its address there. -/
structure RemoteRegionHandler where
  hostPid : HostPid
  remoteHandler : EncodedPtr
  deriving DecidableEq, Repr

/-- `RegionDataRaw`, `RegionDataSplit` with the handlers of its parts, and `RegionDataRemote`. -/
inductive RegionData
  | raw (size : List Int)
  | split (size splitSize : List Int) (parts : List EncodedPtr)
  | remote (size : List Int) (remoteRegionHandler : RemoteRegionHandler) (isDataSplit : Bool)
  deriving DecidableEq, Repr

namespace RegionData

def size : RegionData → List Int
  | .raw size => size
  | .split size _ _ => size
  | .remote size _ _ => size

def isRemote : RegionData → Bool
  | .remote .. => true
  | _ => false

/-- `RegionHandler::isDataSplit` of a handler that holds this. -/
def isDataSplit : RegionData → Bool
  | .raw _ => false
  | .split .. => true
  | .remote _ _ isDataSplit => isDataSplit

end RegionData

/-- `_partsSize` of a dimension. -/
def partsSize (size splitSize : Int) : Int :=
  if size.tmod splitSize ≠ 0 then size.tdiv splitSize + 1 else size.tdiv splitSize

/-- The loop of `coordToPart`, from a dimension whose parts multiplier is `m`: the index of the
    part and the coordinate in it. -/
def coordToPart (m : Int) : List Int → List Int → List Int → Int × List Int
  | s :: size, t :: splitSize, x :: coord =>
      let rest := coordToPart (m * partsSize s t) size splitSize coord
      (x.tdiv t * m + rest.1, x.tmod t :: rest.2)
  | _, _, _ => (0, [])

/-- What the processes hold: the `_regionData` of each handler, the region data at each
    address, and the handlers `RegionHandlerDB` of a process has for other processes. -/
structure World where
  handlers : RemoteRegionHandler → Option EncodedPtr
  datas : HostPid → EncodedPtr → Option RegionData
  db : HostPid → RemoteRegionHandler → Option EncodedPtr

structure UpdateHandlerChainMessage where
  requester : HostPid
  numHops : Nat

structure UpdateHandlerChainReplyMessage where
  dataHost : HostPid
  numHops : Nat
  encodedPtr : EncodedPtr
  isDataSplit : Bool
  deriving DecidableEq

/-- A cell of the process that stores it. -/
structure Cell where
  hostPid : HostPid
  regionData : EncodedPtr
  coord : List Int
  deriving DecidableEq, Repr

namespace World

variable (w : World)

/-- The address of what a handler holds, and what is there. -/
def regionData (h : RemoteRegionHandler) : Option (EncodedPtr × RegionData) := do
  let p ← w.handlers h
  let d ← w.datas h.hostPid p
  pure (p, d)

/-- `RegionHandler::isDataSplit`. -/
def isDataSplit (h : RemoteRegionHandler) : Bool :=
  (w.regionData h).any (fun d => d.2.isDataSplit)

/-- The cell that a read or a write through a handler designates. -/
def cellOf : Nat → RemoteRegionHandler → List Int → Option Cell
  | 0, _, _ => none
  | fuel + 1, h, coord =>
      match w.regionData h with
      | none => none
      | some (p, .raw _) => some ⟨h.hostPid, p, coord⟩
      | some (_, .split size splitSize parts) =>
          let part := coordToPart 1 size splitSize coord
          (parts[part.1.toNat]?).bind (fun p => cellOf fuel ⟨h.hostPid, p⟩ part.2)
      | some (_, .remote _ next _) => cellOf fuel next coord

/-- `processUpdateHandlerChainMsg` at a handler: the owner replies, a reference forwards. -/
def processUpdateHandlerChainMsg :
    Nat → RemoteRegionHandler → UpdateHandlerChainMessage → Option UpdateHandlerChainReplyMessage
  | 0, _, _ => none
  | fuel + 1, h, msg =>
      match w.regionData h with
      | none => none
      | some (_, .remote _ next _) =>
          processUpdateHandlerChainMsg fuel next { msg with numHops := msg.numHops + 1 }
      | some (p, d) => some
          { dataHost := h.hostPid
            numHops := msg.numHops
            encodedPtr := if msg.requester = h.hostPid then p else h.remoteHandler
            isDataSplit := d.isDataSplit }

/-- `updateRegionData`. -/
def updateRegionData (h : RemoteRegionHandler) (p : EncodedPtr) : World :=
  { w with handlers := Function.update w.handlers h (some p) }

/-- `new` region data at address `p` of a process. -/
def newRegionData (host : HostPid) (p : EncodedPtr) (d : RegionData) : World :=
  { w with datas := Function.update w.datas host (Function.update (w.datas host) p (some d)) }

/-- `RegionHandler::updateHandlerChain` of handler `h`; `fresh` is where a new reference goes. -/
def updateHandlerChain (fuel : Nat) (fresh : EncodedPtr) (h : RemoteRegionHandler) :
    Option World :=
  match w.regionData h with
  | some (_, .remote size next _) => do
      let reply ← w.processUpdateHandlerChainMsg fuel next ⟨h.hostPid, 0 + 1⟩
      if reply.dataHost = h.hostPid then
        pure (w.updateRegionData h reply.encodedPtr)
      else if reply.numHops > 1 then
        pure ((w.newRegionData h.hostPid fresh
          (.remote size ⟨reply.dataHost, reply.encodedPtr⟩ reply.isDataSplit)).updateRegionData
            h fresh)
      else pure w
  | _ => pure w

end World

/-! ## Migration -/

namespace World

variable (w : World)

/-- `RegionHandler::remoteRegionHandler`, which a region is serialized with. -/
def remoteRegionHandler (h : RemoteRegionHandler) : RemoteRegionHandler :=
  match w.regionData h with
  | some (_, .remote _ next _) => next
  | _ => h

/-- `new RegionHandler(regionData)` at address `p` of a process. -/
def newHandler (host : HostPid) (p data : EncodedPtr) : World :=
  { w with handlers := Function.update w.handlers ⟨host, p⟩ (some data) }

/-- `RegionHandlerDB::getLocalRegionHandler` in process `self`. -/
def getLocalRegionHandler (self : HostPid) (r : RemoteRegionHandler) (size : List Int)
    (isDataSplit : Bool) (freshData freshHandler : EncodedPtr) : World × RemoteRegionHandler :=
  if r.hostPid = self then (w, r)
  else
    match w.db self r with
    | some p => (w, ⟨self, p⟩)
    | none =>
        let w' := (w.newRegionData self freshData (.remote size r isDataSplit)).newHandler
          self freshHandler freshData
        let localMap := Function.update (w.db self) r (some freshHandler)
        ({ w' with db := Function.update w.db self localMap }, ⟨self, freshHandler⟩)

/-- Serialize the region of handler `h` and unserialize it in process `self`. -/
def migrate (self : HostPid) (h : RemoteRegionHandler) (freshData freshHandler : EncodedPtr) :
    World × RemoteRegionHandler :=
  w.getLocalRegionHandler self (w.remoteRegionHandler h)
    (((w.regionData h).map (fun d => d.2.size)).getD []) (w.isDataSplit h) freshData freshHandler

end World

/-! ## Chains -/

/-- The references from a handler lead in `k` hops to the handler that holds the data.  Each
    reference keeps what `isDataSplit` said at the handler it was made from. -/
inductive Chain (w : World) : RemoteRegionHandler → Nat → RemoteRegionHandler → Prop
  | owner {h : RemoteRegionHandler} {p : EncodedPtr} {d : RegionData} :
      w.regionData h = some (p, d) → d.isRemote = false → Chain w h 0 h
  | hop {h next o : RemoteRegionHandler} {p : EncodedPtr} {size : List Int} {k : Nat} :
      w.regionData h = some (p, .remote size next (w.isDataSplit next)) →
      Chain w next k o → Chain w h (k + 1) o

namespace Chain

variable {w : World} {h o : RemoteRegionHandler} {k : Nat}

/-- The chain ends at raw or split data. -/
theorem owner_data (hc : Chain w h k o) :
    ∃ p d, w.regionData o = some (p, d) ∧ d.isRemote = false := by
  induction hc with
  | owner hd hr => exact ⟨_, _, hd, hr⟩
  | hop _ _ ih => exact ih

/-- Every handler of the chain says of the data what its owner says. -/
theorem isDataSplit_eq (hc : Chain w h k o) : w.isDataSplit h = w.isDataSplit o := by
  induction hc with
  | owner _ _ => rfl
  | hop hd _ ih =>
      rw [← ih]
      conv_lhs => rw [World.isDataSplit, hd]
      rfl

/-- **THE MESSAGE REACHES THE OWNER** and counts the hops. -/
theorem processUpdateHandlerChainMsg (hc : Chain w h k o) {p : EncodedPtr} {d : RegionData}
    (ho : w.regionData o = some (p, d)) :
    ∀ {fuel : Nat} {msg : UpdateHandlerChainMessage}, k < fuel →
      w.processUpdateHandlerChainMsg fuel h msg = some
        { dataHost := o.hostPid
          numHops := msg.numHops + k
          encodedPtr := if msg.requester = o.hostPid then p else o.remoteHandler
          isDataSplit := w.isDataSplit o } := by
  have hsplit : w.isDataSplit o = d.isDataSplit := by
    rw [World.isDataSplit, ho]
    rfl
  induction hc with
  | @owner h p' d' hd hr =>
      intro fuel msg hfuel
      obtain ⟨fuel, rfl⟩ := Nat.exists_eq_succ_of_ne_zero (Nat.ne_of_gt hfuel)
      obtain ⟨rfl, rfl⟩ := Prod.mk.inj (Option.some.inj (hd.symm.trans ho))
      rw [World.processUpdateHandlerChainMsg, hd, hsplit]
      cases d' with
      | raw _ => rfl
      | split _ _ _ => rfl
      | remote _ _ _ => cases hr
  | hop hd _ ih =>
      intro fuel msg hfuel
      obtain ⟨fuel, rfl⟩ := Nat.exists_eq_succ_of_ne_zero (Nat.ne_of_gt (Nat.zero_lt_of_lt hfuel))
      rw [World.processUpdateHandlerChainMsg, hd]
      simp only
      rw [ih ho hsplit (Nat.lt_of_succ_lt_succ hfuel), Nat.add_assoc, Nat.add_comm 1]

/-- A handler has one owner. -/
theorem unique (hc : Chain w h k o) {k' : Nat} {o' : RemoteRegionHandler}
    (hc' : Chain w h k' o') : k = k' ∧ o = o' := by
  induction hc generalizing k' o' with
  | owner hd hr =>
      cases hc' with
      | owner _ _ => exact ⟨rfl, rfl⟩
      | hop hd' _ =>
          obtain ⟨-, rfl⟩ := Prod.mk.inj (Option.some.inj (hd.symm.trans hd'))
          cases hr
  | hop hd _ ih =>
      cases hc' with
      | owner hd' hr' =>
          obtain ⟨-, rfl⟩ := Prod.mk.inj (Option.some.inj (hd.symm.trans hd'))
          cases hr'
      | hop hd' hc' =>
          have hnext := (Prod.mk.inj (Option.some.inj (hd.symm.trans hd'))).2
          obtain ⟨-, rfl, -⟩ := RegionData.remote.inj hnext
          obtain ⟨rfl, rfl⟩ := ih hc'
          exact ⟨rfl, rfl⟩

/-- The cells of a handler are those of its owner. -/
theorem cellOf_eq (hc : Chain w h k o) (fuel : Nat) (coord : List Int) :
    w.cellOf (fuel + k) h coord = w.cellOf fuel o coord := by
  induction hc with
  | owner _ _ => rfl
  | hop hd _ ih =>
      rw [← Nat.add_assoc, World.cellOf, hd]
      exact ih

/-- A cell is found after all hops only. -/
theorem le_of_cellOf (hc : Chain w h k o) {fuel : Nat} {coord : List Int} {c : Cell}
    (h' : w.cellOf fuel h coord = some c) : k ≤ fuel := by
  induction hc generalizing fuel with
  | owner _ _ => exact Nat.zero_le _
  | hop hd _ ih =>
      cases fuel with
      | zero => cases h'
      | succ fuel =>
          rw [World.cellOf, hd] at h'
          exact Nat.succ_le_succ (ih h')

end Chain

/-! ## Redirecting a handler -/

/-- In `w'` handler `h` holds what its owner `o` holds, or a reference to `o`; nothing else
    changes. -/
structure Redirects (w w' : World) (h o : RemoteRegionHandler) : Prop where
  others : ∀ g, g ≠ h → w'.regionData g = w.regionData g
  self : (h.hostPid = o.hostPid ∧ w'.regionData h = w.regionData o) ∨
    ∃ p size, w'.regionData h = some (p, .remote size o (w.isDataSplit o))

/-- A read goes by the process of the handler and what it holds. -/
theorem cellOf_congr {w : World} {g h : RemoteRegionHandler} (hhost : g.hostPid = h.hostPid)
    (hdata : w.regionData g = w.regionData h) (fuel : Nat) (coord : List Int) :
    w.cellOf fuel g coord = w.cellOf fuel h coord := by
  cases fuel with
  | zero => rfl
  | succ fuel => rw [World.cellOf, World.cellOf, hdata, hhost]

/-- Where a handler holds the same in both worlds, so do its cells, if what it leads to does. -/
theorem cellOf_step {w w' : World} {g : RemoteRegionHandler} {fuel : Nat}
    (hg : w'.regionData g = w.regionData g)
    (ih : ∀ g coord c, w.cellOf fuel g coord = some c → ∃ fuel', w'.cellOf fuel' g coord = some c)
    {coord : List Int} {c : Cell} (h : w.cellOf (fuel + 1) g coord = some c) :
    ∃ fuel', w'.cellOf fuel' g coord = some c := by
  rw [World.cellOf] at h
  cases hd : w.regionData g with
  | none =>
      rw [hd] at h
      cases h
  | some pd =>
      obtain ⟨p, d⟩ := pd
      rw [hd] at h hg
      cases d with
      | raw size =>
          refine ⟨1, ?_⟩
          rw [World.cellOf, hg]
          exact h
      | split size splitSize parts =>
          obtain ⟨part, hpart, hcell⟩ := Option.bind_eq_some_iff.mp h
          obtain ⟨fuel', h'⟩ := ih _ _ _ hcell
          refine ⟨fuel' + 1, ?_⟩
          rw [World.cellOf, hg]
          exact Option.bind_eq_some_iff.mpr ⟨part, hpart, h'⟩
      | remote size next flag =>
          obtain ⟨fuel', h'⟩ := ih _ _ _ h
          refine ⟨fuel' + 1, ?_⟩
          rw [World.cellOf, hg]
          exact h'

namespace Redirects

variable {w w' : World} {h o : RemoteRegionHandler} {k : Nat}

theorem owner_ne (hc : Chain w h (k + 1) o) : o ≠ h := by
  rintro rfl
  obtain ⟨p, d, hd, hr⟩ := hc.owner_data
  obtain ⟨hk, -⟩ := hc.unique (Chain.owner hd hr)
  cases hk

theorem cellOf_of (hr : Redirects w w' h o) (hc : Chain w h (k + 1) o) :
    ∀ fuel g coord c, w.cellOf fuel g coord = some c →
      ∃ fuel', w'.cellOf fuel' g coord = some c := by
  intro fuel
  induction fuel using Nat.strongRecOn with
  | ind fuel ih =>
      intro g coord c hcell
      cases fuel with
      | zero => cases hcell
      | succ fuel =>
          by_cases hg : g = h
          · subst hg
            -- the old read goes along the chain, and from the owner on takes less fuel
            obtain ⟨n, hn⟩ := Nat.exists_eq_add_of_le' (hc.le_of_cellOf hcell)
            rw [hn, hc.cellOf_eq] at hcell
            obtain ⟨fuel', h'⟩ := ih n (by omega) o coord c hcell
            rcases hr.self with ⟨hhost, hdata⟩ | ⟨p, size, hdata⟩
            · rw [← hr.others o (owner_ne hc)] at hdata
              exact ⟨fuel', (cellOf_congr hhost hdata fuel' coord).trans h'⟩
            · refine ⟨fuel' + 1, ?_⟩
              rw [World.cellOf, hdata]
              exact h'
          · exact cellOf_step (hr.others g hg) (ih fuel (Nat.lt_succ_self fuel)) hcell

theorem cellOf_to (hr : Redirects w w' h o) (hc : Chain w h (k + 1) o) :
    ∀ fuel g coord c, w'.cellOf fuel g coord = some c →
      ∃ fuel', w.cellOf fuel' g coord = some c := by
  intro fuel
  induction fuel with
  | zero =>
      intro g coord c hcell
      cases hcell
  | succ fuel ih =>
      have hother : ∀ g coord c, g ≠ h → w'.cellOf (fuel + 1) g coord = some c →
          ∃ fuel', w.cellOf fuel' g coord = some c :=
        fun g coord c hg hcell => cellOf_step (hr.others g hg).symm ih hcell
      have howner : ∀ coord c, (∃ fuel', w.cellOf fuel' o coord = some c) →
          ∃ fuel', w.cellOf fuel' h coord = some c := by
        rintro coord c ⟨fuel', h'⟩
        exact ⟨fuel' + (k + 1), (hc.cellOf_eq fuel' coord).trans h'⟩
      intro g coord c hcell
      by_cases hg : g = h
      · subst hg
        rcases hr.self with ⟨hhost, hdata⟩ | ⟨p, size, hdata⟩
        · rw [← hr.others o (owner_ne hc)] at hdata
          rw [cellOf_congr hhost hdata] at hcell
          exact howner coord c (hother o coord c (owner_ne hc) hcell)
        · rw [World.cellOf, hdata] at hcell
          exact howner coord c (ih o coord c hcell)
      · exact hother g coord c hg hcell

/-- **REDIRECTING KEEPS EVERY CELL** that any handler designates. -/
theorem cellOf_iff (hr : Redirects w w' h o) (hc : Chain w h (k + 1) o)
    (g : RemoteRegionHandler) (coord : List Int) (c : Cell) :
    (∃ fuel, w'.cellOf fuel g coord = some c) ↔ ∃ fuel, w.cellOf fuel g coord = some c :=
  ⟨fun ⟨fuel, h'⟩ => hr.cellOf_to hc fuel g coord c h',
    fun ⟨fuel, h'⟩ => hr.cellOf_of hc fuel g coord c h'⟩

/-- What handlers say of the kind of their data does not change. -/
theorem isDataSplit_eq (hr : Redirects w w' h o) (hc : Chain w h k o)
    (g : RemoteRegionHandler) : w'.isDataSplit g = w.isDataSplit g := by
  by_cases hg : g = h
  · subst hg
    rw [hc.isDataSplit_eq]
    rcases hr.self with ⟨-, hdata⟩ | ⟨p, size, hdata⟩
    · rw [World.isDataSplit, hdata]
      rfl
    · conv_lhs => rw [World.isDataSplit, hdata]
      rfl
  · rw [World.isDataSplit, hr.others g hg]
    rfl

end Redirects

/-! ## The update -/

namespace World

variable (w : World)

/-- Nothing of the process is at this address, and no handler of it points there. -/
def Fresh (host : HostPid) (p : EncodedPtr) : Prop :=
  w.datas host p = none ∧ ∀ g, g.hostPid = host → w.handlers g ≠ some p

theorem regionData_updateRegionData (g h : RemoteRegionHandler) (p : EncodedPtr) :
    (w.updateRegionData h p).regionData g =
      if g = h then (w.datas h.hostPid p).map (fun d => (p, d)) else w.regionData g := by
  rw [regionData, updateRegionData]
  by_cases hg : g = h
  · subst hg
    rw [if_pos rfl]
    simp only [Function.update_self, Option.bind_eq_bind, Option.bind_some]
    cases w.datas g.hostPid p <;> rfl
  · rw [if_neg hg]
    simp only [Function.update_of_ne hg]
    rfl

/-- A new object is seen by no handler. -/
theorem regionData_newRegionData {host : HostPid} {p : EncodedPtr} (hf : w.Fresh host p)
    (d : RegionData) (g : RemoteRegionHandler) :
    (w.newRegionData host p d).regionData g = w.regionData g := by
  rw [regionData, regionData, newRegionData]
  cases hg : w.handlers g with
  | none => rfl
  | some q =>
      simp only [Option.bind_eq_bind, Option.bind_some]
      by_cases hhost : g.hostPid = host
      · have hpq : q ≠ p := by
          rintro rfl
          exact hf.2 g hhost hg
        rw [hhost, Function.update_self, Function.update_of_ne hpq]
      · rw [Function.update_of_ne hhost]

/-- The data of a handler is at the address the handler keeps. -/
theorem datas_of_regionData {h : RemoteRegionHandler} {p : EncodedPtr} {d : RegionData}
    (hd : w.regionData h = some (p, d)) : w.datas h.hostPid p = some d := by
  obtain ⟨q, -, hq⟩ := Option.bind_eq_some_iff.mp hd
  obtain ⟨d', hd', he⟩ := Option.bind_eq_some_iff.mp hq
  obtain ⟨rfl, rfl⟩ := Prod.mk.inj (Option.some.inj he)
  exact hd'

/-- **THE UPDATE REDIRECTS TO THE OWNER** a handler that holds a reference. -/
theorem updateHandlerChain_redirects {w : World} {h o : RemoteRegionHandler} {k : Nat}
    (hc : Chain w h (k + 1) o) {fresh : EncodedPtr} (hf : w.Fresh h.hostPid fresh) {fuel : Nat}
    (hfuel : k < fuel) :
    ∃ w', w.updateHandlerChain fuel fresh h = some w' ∧ Redirects w w' h o ∧
      (h.hostPid = o.hostPid → w'.regionData h = w.regionData o) ∧
      (h.hostPid ≠ o.hostPid →
        ∃ p size, w'.regionData h = some (p, .remote size o (w.isDataSplit o)) ∧
          (w.regionData h).map (fun d => d.2.size) = some size) := by
  obtain ⟨q, d, ho, -⟩ := hc.owner_data
  cases hc with
  | @hop _ next _ p size _ hd hnext =>
      have hreply := @Chain.processUpdateHandlerChainMsg _ _ _ _ hnext q d ho fuel
        ⟨h.hostPid, 0 + 1⟩ hfuel
      rw [updateHandlerChain, hd]
      simp only [hreply, Option.bind_eq_bind, Option.bind_some]
      by_cases hhost : o.hostPid = h.hostPid
      · -- the data is in this process
        rw [if_pos hhost, if_pos hhost.symm]
        have hdata : w.datas h.hostPid q = some d := hhost ▸ w.datas_of_regionData ho
        have hself : (w.updateRegionData h q).regionData h = w.regionData o := by
          rw [regionData_updateRegionData, if_pos rfl, hdata, ho]
          rfl
        refine ⟨_, rfl, ⟨?_, .inl ⟨hhost.symm, hself⟩⟩, fun _ => hself,
          fun hne => absurd hhost.symm hne⟩
        intro g hg
        rw [regionData_updateRegionData, if_neg hg]
      · rw [if_neg hhost, if_neg (Ne.symm hhost)]
        by_cases hhops : 0 + 1 + k > 1
        · -- a new reference to the owner
          rw [if_pos hhops]
          have hself : ((w.newRegionData h.hostPid fresh
              (.remote size o (w.isDataSplit o))).updateRegionData h fresh).regionData h =
                some (fresh, .remote size o (w.isDataSplit o)) := by
            rw [regionData_updateRegionData, if_pos rfl, newRegionData]
            simp
          refine ⟨_, rfl, ⟨?_, .inr ⟨fresh, size, hself⟩⟩,
            fun heq => absurd heq.symm hhost, fun _ => ⟨fresh, size, hself, rfl⟩⟩
          intro g hg
          rw [regionData_updateRegionData, if_neg hg, regionData_newRegionData w hf]
        · -- the reference is to the owner already
          rw [if_neg hhops]
          have hk : k = 0 := by omega
          subst hk
          cases hnext with
          | owner _ _ =>
              exact ⟨w, rfl, ⟨fun _ _ => rfl, .inr ⟨p, size, hd⟩⟩,
                fun heq => absurd heq.symm hhost, fun _ => ⟨p, size, hd, rfl⟩⟩

end World

/-- **PATH COMPRESSION PRESERVES MEANING**: after the update the handler holds the data itself
    if the data lives in its process and a reference to the owner otherwise, `isDataSplit`
    agrees with the kind of the data, and every handler designates the cells it did. -/
theorem updateHandlerChain_preserves {w : World} {h o : RemoteRegionHandler} {k : Nat}
    (hc : Chain w h k o) {fresh : EncodedPtr} (hf : w.Fresh h.hostPid fresh) {fuel : Nat}
    (hfuel : k ≤ fuel) :
    ∃ w', w.updateHandlerChain fuel fresh h = some w' ∧
      (h.hostPid = o.hostPid → w'.regionData h = w.regionData o) ∧
      (h.hostPid ≠ o.hostPid →
        ∃ p size, w'.regionData h = some (p, .remote size o (w.isDataSplit o))) ∧
      (w'.isDataSplit h = true ↔
        ∃ p size splitSize parts, w.regionData o = some (p, .split size splitSize parts)) ∧
      ∀ g coord cell, (∃ fuel, w'.cellOf fuel g coord = some cell) ↔
        ∃ fuel, w.cellOf fuel g coord = some cell := by
  have hkind : w.isDataSplit o = true ↔
      ∃ p size splitSize parts, w.regionData o = some (p, .split size splitSize parts) := by
    obtain ⟨q, d, ho, hr⟩ := hc.owner_data
    rw [World.isDataSplit, ho]
    cases d with
    | raw _ => simp [RegionData.isDataSplit]
    | split _ _ _ => simp [RegionData.isDataSplit]
    | remote _ _ _ => cases hr
  cases k with
  | zero =>
      -- the handler holds the data already
      cases hc with
      | @owner _ p d hd hr =>
          have hupdate : w.updateHandlerChain fuel fresh h = some w := by
            rw [World.updateHandlerChain, hd]
            cases d with
            | raw _ => rfl
            | split _ _ _ => rfl
            | remote _ _ _ => cases hr
          exact ⟨w, hupdate, fun _ => rfl, fun hne => absurd rfl hne, hkind, fun _ _ _ => Iff.rfl⟩
  | succ k =>
      obtain ⟨w', hupdate, hr, hlocal, hremote⟩ :=
        World.updateHandlerChain_redirects hc hf hfuel
      refine ⟨w', hupdate, hlocal, fun hne => ?_, ?_, hr.cellOf_iff hc⟩
      · obtain ⟨p, size, hdata, -⟩ := hremote hne
        exact ⟨p, size, hdata⟩
      rw [hr.isDataSplit_eq hc, hc.isDataSplit_eq]
      exact hkind

/-- Process 1 holds a region at handler 10; its handler 20 has it back by way of process 2. -/
def thereAndBack : World where
  handlers h :=
    if h = ⟨1, 10⟩ then some 11 else if h = ⟨2, 10⟩ then some 12
    else if h = ⟨1, 20⟩ then some 13 else none
  datas host p :=
    if host = 1 ∧ p = 11 then some (.raw [4])
    else if host = 2 ∧ p = 12 then some (.remote [4] ⟨1, 10⟩ false)
    else if host = 1 ∧ p = 13 then some (.remote [4] ⟨2, 10⟩ false) else none
  db _ _ := none

/-- Handler 20 ends up with the data of handler 10, and designates its cells as before. -/
theorem updateHandlerChain_preserves_thereAndBack :
    ∃ w', thereAndBack.updateHandlerChain 2 99 ⟨1, 20⟩ = some w' ∧
      w'.regionData ⟨1, 20⟩ = some (11, .raw [4]) ∧
      ∀ cell, (∃ fuel, w'.cellOf fuel ⟨1, 20⟩ [3] = some cell) ↔
        ∃ fuel, thereAndBack.cellOf fuel ⟨1, 20⟩ [3] = some cell := by
  have howner : thereAndBack.regionData ⟨1, 10⟩ = some (11, .raw [4]) := by decide
  have hthere : thereAndBack.regionData ⟨2, 10⟩ =
      some (12, .remote [4] ⟨1, 10⟩ (thereAndBack.isDataSplit ⟨1, 10⟩)) := by decide
  have hback : thereAndBack.regionData ⟨1, 20⟩ =
      some (13, .remote [4] ⟨2, 10⟩ (thereAndBack.isDataSplit ⟨2, 10⟩)) := by decide
  have hc : Chain thereAndBack ⟨1, 20⟩ 2 ⟨1, 10⟩ :=
    Chain.hop hback (Chain.hop hthere (Chain.owner howner rfl))
  have hf : thereAndBack.Fresh 1 99 := by
    refine ⟨by decide, ?_⟩
    intro g _
    simp only [thereAndBack]
    split_ifs <;> decide
  obtain ⟨w', hupdate, hlocal, -, -, hcells⟩ :=
    updateHandlerChain_preserves hc hf (Nat.le_refl 2)
  exact ⟨w', hupdate, (hlocal rfl).trans howner, fun cell => hcells ⟨1, 20⟩ [3] cell⟩

/-! ## Regions on the move -/

/-- The references from a handler lead to the object at this address of this process. -/
def Leads (w : World) (h : RemoteRegionHandler) (host : HostPid) (p : EncodedPtr) : Prop :=
  ∃ k o d, Chain w h k o ∧ w.regionData o = some (p, d) ∧ o.hostPid = host

/-- A world where handlers that hold something hold the same. -/
def Extends (w w' : World) : Prop :=
  ∀ g, w.regionData g ≠ none → w'.regionData g = w.regionData g

namespace Leads

variable {w w' : World} {h g o : RemoteRegionHandler} {host : HostPid} {p : EncodedPtr}

theorem ne_none (hl : Leads w h host p) : w.regionData h ≠ none := by
  obtain ⟨k, o, d, hc, -, -⟩ := hl
  cases hc with
  | owner hd _ =>
      rw [hd]
      exact Option.some_ne_none _
  | hop hd _ =>
      rw [hd]
      exact Option.some_ne_none _

/-- A handler with data of its own leads to it. -/
theorem of_owner {d : RegionData} (hd : w.regionData o = some (p, d)) (hr : d.isRemote = false) :
    Leads w o o.hostPid p :=
  ⟨0, o, d, Chain.owner hd hr, hd, rfl⟩

/-- A reference leads where its target does. -/
theorem hop {q : EncodedPtr} {size : List Int}
    (hd : w.regionData h = some (q, .remote size g (w.isDataSplit g))) (hl : Leads w g host p) :
    Leads w h host p := by
  obtain ⟨k, o, d, hc, ho, hhost⟩ := hl
  exact ⟨k + 1, o, d, Chain.hop hd hc, ho, hhost⟩

theorem induction {P : RemoteRegionHandler → Prop}
    (howner : ∀ o d, w.regionData o = some (p, d) → d.isRemote = false → o.hostPid = host → P o)
    (hhop : ∀ h g q size, w.regionData h = some (q, .remote size g (w.isDataSplit g)) →
      Leads w g host p → P g → P h) (hl : Leads w h host p) : P h := by
  obtain ⟨k, o, d, hc, ho, hhost⟩ := hl
  induction hc with
  | owner hd hr =>
      obtain ⟨-, rfl⟩ := Prod.mk.inj (Option.some.inj (hd.symm.trans ho))
      exact howner _ _ ho hr hhost
  | hop hd hc ih => exact hhop _ _ _ _ hd ⟨_, _, d, hc, ho, hhost⟩ (ih ho hhost)

theorem extend (hl : Leads w h host p) (hext : Extends w w') : Leads w' h host p := by
  refine hl.induction (P := fun h => Leads w' h host p) ?_ ?_
  · rintro o d ho hr rfl
    refine of_owner (d := d) ?_ hr
    rw [hext o (by rw [ho]; exact Option.some_ne_none _), ho]
  · intro h g q size hd hg hg'
    refine @hop _ _ _ _ _ q size ?_ hg'
    rw [hext h (by rw [hd]; exact Option.some_ne_none _), hd, World.isDataSplit,
      World.isDataSplit, hext g hg.ne_none]

/-- Redirecting a handler to its owner leaves every handler leading where it did. -/
theorem redirect {k : Nat} (hl : Leads w g host p) (hr : Redirects w w' h o)
    (hc : Chain w h (k + 1) o) : Leads w' g host p := by
  obtain ⟨q, d, ho, hdr⟩ := hc.owner_data
  have howner : w'.regionData o = some (q, d) := by
    rw [hr.others o (Redirects.owner_ne hc), ho]
  have hself : Leads w' h o.hostPid q := by
    rcases hr.self with ⟨hhost, hdata⟩ | ⟨q', size, hdata⟩
    · rw [← hhost]
      exact of_owner (hdata.trans ho) hdr
    · rw [← hr.isDataSplit_eq hc] at hdata
      exact hop hdata (of_owner howner hdr)
  -- the chain of the handler has one end
  have hend : ∀ {host p}, Leads w h host p → host = o.hostPid ∧ p = q := by
    rintro host p ⟨k', o', d', hc', ho', rfl⟩
    obtain ⟨-, rfl⟩ := hc'.unique hc
    exact ⟨rfl, (Prod.mk.inj (Option.some.inj (ho'.symm.trans ho))).1⟩
  by_cases hgh : g = h
  · subst hgh
    obtain ⟨rfl, rfl⟩ := hend hl
    exact hself
  · refine (hl.induction (P := fun g => Leads w g host p ∧ Leads w' g host p) ?_ ?_).2
    · rintro o' d' ho' hr' rfl
      refine ⟨of_owner ho' hr', of_owner (d := d') ?_ hr'⟩
      rw [hr.others, ho']
      rintro rfl
      obtain ⟨hk, -⟩ := hc.unique (Chain.owner ho' hr')
      cases hk
    · rintro g g' q' size hd hg' ⟨-, hg''⟩
      have hl := hop hd hg'
      refine ⟨hl, ?_⟩
      by_cases hgh : g = h
      · subst hgh
        obtain ⟨rfl, rfl⟩ := hend hl
        exact hself
      · rw [← hr.others g hgh, ← hr.isDataSplit_eq hc] at hd
        exact hop hd hg''

end Leads

theorem Leads.unique {w : World} {h : RemoteRegionHandler} {host host' : HostPid}
    {p p' : EncodedPtr} (hl : Leads w h host p) (hl' : Leads w h host' p') :
    host = host' ∧ p = p' := by
  obtain ⟨k, o, d, hc, ho, rfl⟩ := hl
  obtain ⟨k', o', d', hc', ho', rfl⟩ := hl'
  obtain ⟨-, rfl⟩ := hc.unique hc'
  exact ⟨rfl, (Prod.mk.inj (Option.some.inj (ho.symm.trans ho'))).1⟩

/-- Every handler leads somewhere, and the database has for a handler one that leads to the
    same place. -/
structure Linked (w : World) : Prop where
  leads : ∀ h, w.regionData h ≠ none → ∃ host p, Leads w h host p
  db : ∀ self r q, w.db self r = some q →
    ∃ host p, Leads w r host p ∧ Leads w ⟨self, q⟩ host p

/-- A reference made by serializing a handler leads where the handler does. -/
theorem Leads.remoteRegionHandler {w : World} {h : RemoteRegionHandler} {host : HostPid}
    {p : EncodedPtr} (hl : Leads w h host p) :
    Leads w (w.remoteRegionHandler h) host p ∧
      w.isDataSplit h = w.isDataSplit (w.remoteRegionHandler h) := by
  obtain ⟨k, o, d, hc, ho, hhost⟩ := hl
  cases hc with
  | @owner _ _ d' hd hr =>
      have hself : w.remoteRegionHandler h = h := by
        rw [World.remoteRegionHandler, hd]
        cases d' with
        | raw _ => rfl
        | split _ _ _ => rfl
        | remote _ _ _ => cases hr
      rw [hself]
      exact ⟨⟨0, h, d, Chain.owner hd hr, ho, hhost⟩, rfl⟩
  | @hop _ next _ _ _ k hd hc =>
      have hnext : w.remoteRegionHandler h = next := by
        rw [World.remoteRegionHandler, hd]
      rw [hnext]
      refine ⟨⟨k, o, d, hc, ho, hhost⟩, ?_⟩
      conv_lhs => rw [World.isDataSplit, hd]
      rfl

/-- The world with a new handler for a reference, which the database keeps. -/
def World.newReference (w : World) (self : HostPid) (r : RemoteRegionHandler) (size : List Int)
    (isDataSplit : Bool) (freshData freshHandler : EncodedPtr) : World :=
  { (w.newRegionData self freshData (.remote size r isDataSplit)).newHandler
      self freshHandler freshData with
    db := Function.update w.db self (Function.update (w.db self) r (some freshHandler)) }

theorem World.regionData_newReference {w : World} {self : HostPid}
    {freshData : EncodedPtr} (hdata : w.Fresh self freshData) (r : RemoteRegionHandler)
    (size : List Int) (isDataSplit : Bool) (freshHandler : EncodedPtr) (g : RemoteRegionHandler) :
    (w.newReference self r size isDataSplit freshData freshHandler).regionData g =
      if g = ⟨self, freshHandler⟩ then some (freshData, .remote size r isDataSplit)
      else w.regionData g := by
  change ((w.newRegionData self freshData (.remote size r isDataSplit)).updateRegionData
    ⟨self, freshHandler⟩ freshData).regionData g = _
  rw [World.regionData_updateRegionData, World.regionData_newRegionData w hdata]
  simp [World.newRegionData]

theorem World.extends_newReference {w : World} {self : HostPid} {freshData freshHandler : EncodedPtr}
    (hdata : w.Fresh self freshData) (hhandler : w.handlers ⟨self, freshHandler⟩ = none)
    (r : RemoteRegionHandler) (size : List Int) (isDataSplit : Bool) :
    Extends w (w.newReference self r size isDataSplit freshData freshHandler) := by
  intro g hg
  rw [regionData_newReference hdata, if_neg]
  rintro rfl
  exact hg (by rw [World.regionData, hhandler]; rfl)

/-- A new handler with a reference that is not in the database yet. -/
theorem Linked.newReference {w : World} (hw : Linked w) {self : HostPid}
    {r : RemoteRegionHandler} {freshData freshHandler : EncodedPtr}
    (hdata : w.Fresh self freshData) (hhandler : w.handlers ⟨self, freshHandler⟩ = none)
    {host : HostPid} {p : EncodedPtr} (hr : Leads w r host p) (size : List Int) :
    let w' := w.newReference self r size (w.isDataSplit r) freshData freshHandler
    Leads w' ⟨self, freshHandler⟩ host p ∧ Linked w' := by
  intro w'
  have hregion : ∀ g, w'.regionData g =
      if g = ⟨self, freshHandler⟩ then some (freshData, .remote size r (w.isDataSplit r))
      else w.regionData g := World.regionData_newReference hdata r size _ freshHandler
  have hext : Extends w w' := World.extends_newReference hdata hhandler r size _
  have hr' := hr.extend hext
  have hnew : Leads w' ⟨self, freshHandler⟩ host p := by
    refine @Leads.hop _ _ _ _ _ freshData size ?_ hr'
    rw [hregion, if_pos rfl, World.isDataSplit, World.isDataSplit, hext r hr.ne_none]
  refine ⟨hnew, ?_, ?_⟩
  · intro g hg
    by_cases hgn : g = ⟨self, freshHandler⟩
    · exact ⟨host, p, hgn ▸ hnew⟩
    · rw [hregion, if_neg hgn] at hg
      obtain ⟨host', p', hl⟩ := hw.leads g hg
      exact ⟨host', p', hl.extend hext⟩
  · intro self' r' q hq
    change Function.update w.db self (Function.update (w.db self) r (some freshHandler))
      self' r' = some q at hq
    -- an entry that was there before
    have hold : w.db self' r' = some q →
        ∃ host p, Leads w' r' host p ∧ Leads w' ⟨self', q⟩ host p := by
      intro hq
      obtain ⟨host', p', h1, h2⟩ := hw.db self' r' q hq
      exact ⟨host', p', h1.extend hext, h2.extend hext⟩
    by_cases hs : self' = self
    · subst hs
      rw [Function.update_self] at hq
      by_cases hrr : r' = r
      · subst hrr
        rw [Function.update_self] at hq
        obtain rfl := Option.some.inj hq
        exact ⟨host, p, hr', hnew⟩
      · rw [Function.update_of_ne hrr] at hq
        exact hold hq
    · rw [Function.update_of_ne hs] at hq
      exact hold hq

theorem Extends.refl (w : World) : Extends w w := fun _ _ => rfl

theorem Extends.trans {w w' w'' : World} (h : Extends w w') (h' : Extends w' w'') :
    Extends w w'' := by
  intro g hg
  have hg' := h g hg
  rw [h' g (by rw [hg']; exact hg), hg']

/-- **A REFERENCE GETS A HANDLER** that leads where it does, and no other handler changes. -/
theorem Linked.getLocalRegionHandler {w : World} (hw : Linked w) {self : HostPid}
    {r : RemoteRegionHandler} {freshData freshHandler : EncodedPtr}
    (hdata : w.Fresh self freshData) (hhandler : w.handlers ⟨self, freshHandler⟩ = none)
    {host : HostPid} {p : EncodedPtr} (hr : Leads w r host p) (size : List Int) :
    Leads (w.getLocalRegionHandler self r size (w.isDataSplit r) freshData freshHandler).1
        (w.getLocalRegionHandler self r size (w.isDataSplit r) freshData freshHandler).2 host p ∧
      Linked (w.getLocalRegionHandler self r size (w.isDataSplit r) freshData freshHandler).1 ∧
      Extends w
        (w.getLocalRegionHandler self r size (w.isDataSplit r) freshData freshHandler).1 := by
  rw [World.getLocalRegionHandler]
  by_cases hself : r.hostPid = self
  · rw [if_pos hself]
    exact ⟨hr, hw, Extends.refl w⟩
  · rw [if_neg hself]
    cases hdb : w.db self r with
    | some q =>
        obtain ⟨host', p', hr', hq⟩ := hw.db self r q hdb
        obtain ⟨rfl, rfl⟩ := hr.unique hr'
        exact ⟨hq, hw, Extends.refl w⟩
    | none =>
        obtain ⟨hleads, hlinked⟩ := hw.newReference hdata hhandler hr size
        exact ⟨hleads, hlinked, World.extends_newReference hdata hhandler r size _⟩

/-- **MIGRATION KEEPS THE CHAIN**: the handler a region gets in another process leads to the
    data of the one it came from, and the world stays linked. -/
theorem Linked.migrate {w : World} (hw : Linked w) {self : HostPid} {h : RemoteRegionHandler}
    {freshData freshHandler : EncodedPtr} (hdata : w.Fresh self freshData)
    (hhandler : w.handlers ⟨self, freshHandler⟩ = none) {host : HostPid} {p : EncodedPtr}
    (hl : Leads w h host p) :
    Leads (w.migrate self h freshData freshHandler).1
        (w.migrate self h freshData freshHandler).2 host p ∧
      Linked (w.migrate self h freshData freshHandler).1 := by
  obtain ⟨hr, hflag⟩ := hl.remoteRegionHandler
  rw [World.migrate, hflag]
  obtain ⟨hleads, hlinked, -⟩ := hw.getLocalRegionHandler hdata hhandler hr
    (((w.regionData h).map (fun d => d.2.size)).getD [])
  exact ⟨hleads, hlinked⟩

section Cells

variable {w w' : World} {h r : RemoteRegionHandler} {host : HostPid} {p : EncodedPtr}

theorem Leads.isDataSplit_extends (hl : Leads w h host p) (hext : Extends w w') :
    w'.isDataSplit h = w.isDataSplit h := by
  rw [World.isDataSplit, World.isDataSplit, hext h hl.ne_none]

/-- The target of a reference holds something. -/
theorem Linked.target_ne_none (hw : Linked w) {size : List Int} {next : RemoteRegionHandler}
    {flag : Bool} (hd : w.regionData h = some (p, .remote size next flag)) :
    w.regionData next ≠ none := by
  obtain ⟨host, q, k, o, d, hc, ho, _⟩ := hw.leads h (by rw [hd]; exact Option.some_ne_none _)
  cases hc with
  | owner hd' hr =>
      obtain ⟨-, rfl⟩ := Prod.mk.inj (Option.some.inj (hd.symm.trans hd'))
      cases hr
  | hop hd' hnext =>
      obtain ⟨-, heq⟩ := Prod.mk.inj (Option.some.inj (hd.symm.trans hd'))
      obtain ⟨-, rfl, -⟩ := RegionData.remote.inj heq
      exact Leads.ne_none ⟨_, o, d, hnext, ho, rfl⟩

/-- A cell is found with more fuel too. -/
theorem cellOf_succ {fuel : Nat} {coord : List Int} {c : Cell}
    (hc : w.cellOf fuel h coord = some c) : w.cellOf (fuel + 1) h coord = some c := by
  induction fuel generalizing h coord with
  | zero => cases hc
  | succ fuel ih =>
      rw [World.cellOf] at hc ⊢
      cases hd : w.regionData h with
      | none =>
          rw [hd] at hc
          cases hc
      | some pd =>
          obtain ⟨q, d⟩ := pd
          rw [hd] at hc
          cases d with
          | raw size => exact hc
          | split size splitSize parts =>
              obtain ⟨part, hpart, hcell⟩ := Option.bind_eq_some_iff.mp hc
              exact Option.bind_eq_some_iff.mpr ⟨part, hpart, ih hcell⟩
          | remote size next flag => exact ih hc

theorem cellOf_mono {fuel fuel' : Nat} {coord : List Int} {c : Cell} (hle : fuel ≤ fuel')
    (hc : w.cellOf fuel h coord = some c) : w.cellOf fuel' h coord = some c := by
  induction hle with
  | refl => exact hc
  | step _ ih => exact cellOf_succ ih

/-- A coordinate of a handler has one cell. -/
theorem cellOf_unique {fuel fuel' : Nat} {coord : List Int} {c c' : Cell}
    (hc : w.cellOf fuel h coord = some c) (hc' : w.cellOf fuel' h coord = some c') : c = c' := by
  have h1 := cellOf_mono (Nat.le_max_left fuel fuel') hc
  have h2 := cellOf_mono (Nat.le_max_right fuel fuel') hc'
  exact Option.some.inj (h1.symm.trans h2)

/-- A cell stays where it is when handlers are added. -/
theorem cellOf_extends (hext : Extends w w') (fuel : Nat) (h : RemoteRegionHandler)
    (coord : List Int) (c : Cell) (hc : w.cellOf fuel h coord = some c) :
    ∃ fuel', w'.cellOf fuel' h coord = some c := by
  induction fuel generalizing h coord c with
  | zero => cases hc
  | succ fuel ih =>
      refine cellOf_step (hext h ?_) (fun g coord c => ih g coord c) hc
      intro hnone
      rw [World.cellOf, hnone] at hc
      cases hc

/-- Handlers that lead to the same data designate the same cells. -/
theorem Leads.cellOf (hl : Leads w h host p) (hr : Leads w r host p) {fuel : Nat}
    {coord : List Int} {c : Cell} (hc : w.cellOf fuel h coord = some c) :
    ∃ fuel', w.cellOf fuel' r coord = some c := by
  obtain ⟨k, o, d, hchain, ho, hhost⟩ := hl
  obtain ⟨k', o', d', hchain', ho', hhost'⟩ := hr
  obtain ⟨n, hn⟩ := Nat.exists_eq_add_of_le' (hchain.le_of_cellOf hc)
  rw [hn, hchain.cellOf_eq] at hc
  -- the two owners may be different handlers of one object
  have hdata : w.regionData o = w.regionData o' := by
    have h1 := w.datas_of_regionData ho
    have h2 := w.datas_of_regionData ho'
    rw [hhost] at h1
    rw [hhost', h1] at h2
    rw [ho, ho', Option.some.inj h2]
  refine ⟨n + k', ?_⟩
  rw [hchain'.cellOf_eq, ← cellOf_congr (hhost.trans hhost'.symm) hdata]
  exact hc

end Cells

/-- The message is answered after all hops only. -/
theorem Chain.lt_of_reply {w : World} {h o : RemoteRegionHandler} {k fuel : Nat}
    {msg : UpdateHandlerChainMessage} {reply : UpdateHandlerChainReplyMessage}
    (hc : Chain w h k o) (hreply : w.processUpdateHandlerChainMsg fuel h msg = some reply) :
    k < fuel := by
  induction hc generalizing fuel msg with
  | owner _ _ =>
      cases fuel with
      | zero => cases hreply
      | succ fuel => exact Nat.succ_pos fuel
  | hop hd _ ih =>
      cases fuel with
      | zero => cases hreply
      | succ fuel =>
          rw [World.processUpdateHandlerChainMsg, hd] at hreply
          exact Nat.succ_lt_succ (ih hreply)

/-- What an update that goes through does: nothing, or it redirects the handler to the owner
    of its chain, to the data there or to a reference of the size it had. -/
theorem Linked.update_cases {w w' : World} (hw : Linked w) {h : RemoteRegionHandler}
    {fresh : EncodedPtr} (hf : w.Fresh h.hostPid fresh) {fuel : Nat}
    (hupdate : w.updateHandlerChain fuel fresh h = some w') :
    w' = w ∨ ∃ k o, Chain w h (k + 1) o ∧ Redirects w w' h o ∧ w'.db = w.db ∧
      (w'.regionData h = w.regionData o ∨
        ∃ p size, w'.regionData h = some (p, .remote size o (w.isDataSplit o)) ∧
          (w.regionData h).map (fun d => d.2.size) = some size) := by
  by_cases hlive : ∃ p size next flag, w.regionData h = some (p, .remote size next flag)
  · obtain ⟨p, size, next, flag, hd⟩ := hlive
    obtain ⟨host, q, k, o, d, hc, ho, -⟩ := hw.leads h (by rw [hd]; exact Option.some_ne_none _)
    obtain ⟨k, rfl⟩ : ∃ k', k = k' + 1 := by
      cases hc with
      | owner hd' hr' =>
          obtain ⟨-, rfl⟩ := Prod.mk.inj (Option.some.inj (hd.symm.trans hd'))
          cases hr'
      | hop _ _ => exact ⟨_, rfl⟩
    have hfuel : k < fuel := by
      cases hc with
      | hop hd' hnext =>
          rw [World.updateHandlerChain, hd'] at hupdate
          obtain ⟨reply, hreply, -⟩ := Option.bind_eq_some_iff.mp hupdate
          exact hnext.lt_of_reply hreply
    obtain ⟨w'', hupdate', hr, hlocal, hremote⟩ :=
      World.updateHandlerChain_redirects hc hf hfuel
    -- neither branch touches the database
    have hdb : w'.db = w.db := by
      rw [World.updateHandlerChain, hd] at hupdate
      obtain ⟨reply, -, hupdate⟩ := Option.bind_eq_some_iff.mp hupdate
      split at hupdate
      · rw [← Option.some.inj hupdate]
        rfl
      · split at hupdate
        · rw [← Option.some.inj hupdate]
          rfl
        · rw [← Option.some.inj hupdate]
    obtain rfl := Option.some.inj (hupdate.symm.trans hupdate')
    refine Or.inr ⟨k, o, hc, hr, hdb, ?_⟩
    by_cases hhost : h.hostPid = o.hostPid
    · exact Or.inl (hlocal hhost)
    · exact Or.inr (hremote hhost)
  · -- a handler that holds no reference is left alone
    have hsame : w.updateHandlerChain fuel fresh h = some w := by
      rw [World.updateHandlerChain]
      split
      · rename_i p size next flag hd
        exact absurd ⟨p, size, next, flag, hd⟩ hlive
      · rfl
    exact Or.inl (Option.some.inj (hupdate.symm.trans hsame))

/-- **AN UPDATE KEEPS THE CHAINS**. -/
theorem Linked.update {w w' : World} (hw : Linked w) {h : RemoteRegionHandler}
    {fresh : EncodedPtr} (hf : w.Fresh h.hostPid fresh) {fuel : Nat}
    (hupdate : w.updateHandlerChain fuel fresh h = some w') : Linked w' := by
  rcases hw.update_cases hf hupdate with rfl | ⟨k, o, hc, hr, hdb, -⟩
  · exact hw
  · constructor
    · intro g hg
      by_cases hgh : g = h
      · have hlive : w.regionData h ≠ none := by
          cases hc with
          | hop hd _ =>
              rw [hd]
              exact Option.some_ne_none _
        obtain ⟨host, q, hl⟩ := hw.leads h hlive
        exact ⟨host, q, hgh ▸ hl.redirect hr hc⟩
      · rw [hr.others g hgh] at hg
        obtain ⟨host, q, hl⟩ := hw.leads g hg
        exact ⟨host, q, hl.redirect hr hc⟩
    · intro self r q hq
      rw [hdb] at hq
      obtain ⟨host, p, h1, h2⟩ := hw.db self r q hq
      exact ⟨host, p, h1.redirect hr hc, h2.redirect hr hc⟩

/-- A region moves to another process, or a handler updates its chain. -/
inductive Action
  | migrate (self : HostPid) (h : RemoteRegionHandler) (freshData freshHandler : EncodedPtr)
  | update (fuel : Nat) (fresh : EncodedPtr) (h : RemoteRegionHandler)

/-- The addresses `new` returns are fresh, and a region that moves has a handler. -/
def Action.Allowed (w : World) : Action → Prop
  | .migrate self h freshData freshHandler =>
      w.Fresh self freshData ∧ w.handlers ⟨self, freshHandler⟩ = none ∧ w.regionData h ≠ none
  | .update _ fresh h => w.Fresh h.hostPid fresh

/-- Regions that move between processes, from a world without references. -/
def system : PbTransition.System World Action where
  init := fun w => (∀ h p d, w.regionData h = some (p, d) → d.isRemote = false) ∧
    ∀ self r, w.db self r = none
  next := fun w a =>
    match a with
    | .migrate self h freshData freshHandler =>
        some (w.migrate self h freshData freshHandler).1
    | .update fuel fresh h => w.updateHandlerChain fuel fresh h

/-- Before anything moves there is nothing to link. -/
theorem linked_init {w : World}
    (howner : ∀ h p d, w.regionData h = some (p, d) → d.isRemote = false)
    (hdb : ∀ self r, w.db self r = none) : Linked w := by
  constructor
  · intro h hlive
    obtain ⟨⟨p, d⟩, hd⟩ := Option.ne_none_iff_exists'.mp hlive
    exact ⟨_, _, Leads.of_owner hd (howner h p d hd)⟩
  · intro self r q hq
    rw [hdb] at hq
    cases hq

/-- An allowed step keeps the links. -/
theorem Linked.next {w w' : World} {a : Action} (hw : Linked w) (hok : a.Allowed w)
    (hnext : system.next w a = some w') : Linked w' := by
  cases a with
  | migrate self h freshData freshHandler =>
      obtain ⟨hdata, hhandler, hlive⟩ := hok
      obtain ⟨host, p, hl⟩ := hw.leads h hlive
      rw [← Option.some.inj hnext]
      exact (hw.migrate hdata hhandler hl).2
  | update fuel fresh h => exact hw.update hok hnext

open Classical in
/-- **EVERY REGION HAS ITS CHAIN**, however regions move and handlers update. -/
theorem reachable_chain {w : World}
    (hw : PbTransition.Reachable (system.restrict Action.Allowed) w)
    (h : RemoteRegionHandler) (hlive : w.regionData h ≠ none) : ∃ k o, Chain w h k o := by
  have hlinked : Linked w := by
    refine PbTransition.Reachable.invariant_restrict Linked hw ?_ ?_
    · rintro w ⟨howner, hdb⟩
      exact linked_init howner hdb
    · intro w a w' hw hok hnext
      exact hw.next hok hnext
  obtain ⟨host, p, k, o, d, hc, -, -⟩ := hlinked.leads h hlive
  exact ⟨k, o, hc⟩

end PbHandlerChain
