import PetaBricks.RegionSerialModel

/-! # Region serialisation — records are read back

    A record is read back field by field, whatever follows it (`Reads`), and has the length
    that `serialSize` says, on either side.  The handler that the reader gets leads to the data
    of the writer's, so the view designates the same cells.

    The one region that does not make it is a `RegionMatrixWrapper<0>` whose coordinate is
    shorter than its handler's dimensions: `serialize` copies beyond the array
    (`task_round_trip_iff`). -/

namespace PbRegionSerial

open PbReader PbRegionMatrix PbHandlerChain
open PbForwarding (Byte Buffer Value readValue length_bytes readValue_append)

/-! ## Worlds -/

/-- A reference has the size of what it refers to. -/
def Sized (w : World) : Prop :=
  ∀ h p size next flag, w.regionData h = some (p, .remote size next flag) →
    sizeOf w next = size

/-- Every handler leads to its data, and references have its size. -/
structure Consistent (w : World) : Prop where
  linked : Linked w
  sized : Sized w

section Worlds

variable {w w' : World} {h r : RemoteRegionHandler} {host : HostPid} {p : EncodedPtr}

theorem sizeOf_of {d : RegionData} (hd : w.regionData h = some (p, d)) : sizeOf w h = d.size := by
  rw [sizeOf, hd]
  rfl

/-- All handlers that lead to the same data have its size. -/
theorem Sized.sizeOf_eq (hs : Sized w) (hl : Leads w h host p) :
    sizeOf w h = ((w.datas host p).map RegionData.size).getD [] := by
  refine hl.induction (P := fun h => sizeOf w h = _) ?_ ?_
  · rintro o d ho - rfl
    rw [sizeOf_of ho, w.datas_of_regionData ho]
    rfl
  · intro h g q size hd _ ih
    rw [sizeOf_of hd, ← ih]
    exact (hs h q size g _ hd).symm

theorem sizeOf_extends (hext : Extends w w') (hlive : w.regionData h ≠ none) :
    sizeOf w' h = sizeOf w h := by
  rw [sizeOf, sizeOf, hext h hlive]

/-- A reference made by serializing a handler has its size. -/
theorem Sized.sizeOf_remoteRegionHandler (hs : Sized w) (hl : Leads w h host p) :
    sizeOf w (w.remoteRegionHandler h) = sizeOf w h := by
  rw [hs.sizeOf_eq hl, hs.sizeOf_eq hl.remoteRegionHandler.1]

/-- **A REFERENCE GETS A HANDLER**, of its size, in a world that is as consistent. -/
theorem Consistent.getLocalRegionHandler (hw : Consistent w) {self : HostPid}
    {freshData freshHandler : EncodedPtr} (hdata : w.Fresh self freshData)
    (hhandler : w.handlers ⟨self, freshHandler⟩ = none) (hl : Leads w r host p)
    {size : List Int} (hsize : size = sizeOf w r) :
    let res := w.getLocalRegionHandler self r size (w.isDataSplit r) freshData freshHandler
    Leads res.1 res.2 host p ∧ Consistent res.1 ∧ Extends w res.1 ∧ res.2.hostPid = self := by
  intro res
  obtain ⟨hleads, hlinked, hext⟩ := hw.linked.getLocalRegionHandler hdata hhandler hl size
  refine ⟨hleads, ⟨hlinked, ?_⟩, hext, ?_⟩
  · show Sized (World.getLocalRegionHandler ..).1
    rw [World.getLocalRegionHandler] at hext ⊢
    by_cases hself : r.hostPid = self
    · rw [if_pos hself]
      exact hw.sized
    · rw [if_neg hself] at hext ⊢
      cases hdb : w.db self r with
      | some q => exact hw.sized
      | none =>
          rw [hdb] at hext
          show Sized (w.newReference self r size (w.isDataSplit r) freshData freshHandler)
          intro g q size' next flag hd
          rw [World.regionData_newReference hdata] at hd
          by_cases hg : g = ⟨self, freshHandler⟩
          · rw [if_pos hg] at hd
            obtain ⟨-, heq⟩ := Prod.mk.inj (Option.some.inj hd)
            obtain ⟨rfl, rfl, -⟩ := RegionData.remote.inj heq
            exact (sizeOf_extends hext hl.ne_none).trans hsize.symm
          · rw [if_neg hg] at hd
            exact (sizeOf_extends hext (hw.linked.target_ne_none hd)).trans
              (hw.sized g q size' next flag hd)
  · show (World.getLocalRegionHandler ..).2.hostPid = self
    rw [World.getLocalRegionHandler]
    split
    · assumption
    · cases w.db self r <;> rfl

/-- A world without references. -/
theorem consistent_init (howner : ∀ h p d, w.regionData h = some (p, d) → d.isRemote = false)
    (hdb : ∀ self r, w.db self r = none) : Consistent w := by
  refine ⟨linked_init howner hdb, ?_⟩
  intro h p size next flag hd
  exact nomatch howner h p _ hd

/-- Redirecting a handler changes no size. -/
theorem Consistent.update (hw : Consistent w) {fresh : EncodedPtr}
    (hf : w.Fresh h.hostPid fresh) {fuel : Nat}
    (hupdate : w.updateHandlerChain fuel fresh h = some w') : Consistent w' := by
  refine ⟨hw.linked.update hf hupdate, ?_⟩
  rcases hw.linked.update_cases hf hupdate with rfl | ⟨k, o, hc, hr, -, hself⟩
  · exact hw.sized
  · obtain ⟨q, d, ho, hremote⟩ := hc.owner_data
    have hsize : sizeOf w o = sizeOf w h := by
      rw [hw.sized.sizeOf_eq (Leads.of_owner ho hremote),
        hw.sized.sizeOf_eq ⟨k + 1, o, d, hc, ho, rfl⟩]
    have hsizes : ∀ g, sizeOf w' g = sizeOf w g := by
      intro g
      by_cases hg : g = h
      · subst hg
        rcases hself with hdata | ⟨p, size, hdata, hold⟩
        · rw [← hsize, sizeOf, sizeOf, hdata]
        · rw [sizeOf_of hdata, sizeOf, hold]
          rfl
      · rw [sizeOf, sizeOf, hr.others g hg]
    intro g p size next flag hd
    rw [hsizes]
    by_cases hg : g = h
    · subst hg
      rcases hself with hdata | ⟨p', size', hdata, hold⟩
      · rw [hdata] at hd
        exact hw.sized o p size next flag hd
      · obtain ⟨-, heq⟩ := Prod.mk.inj (Option.some.inj (hdata.symm.trans hd))
        obtain ⟨rfl, rfl, -⟩ := RegionData.remote.inj heq
        rw [hsize, sizeOf, hold]
        rfl
    · rw [hr.others g hg] at hd
      exact hw.sized g p size next flag hd

open Classical in
/-- **EVERY WORLD IS CONSISTENT**, however regions move and handlers update. -/
theorem reachable_consistent
    (hw : PbTransition.Reachable (system.restrict Action.Allowed) w) : Consistent w := by
  refine PbTransition.Reachable.invariant_restrict Consistent hw ?_ ?_
  · rintro w ⟨howner, hdb⟩
    exact consistent_init howner hdb
  · intro w a w' hw hok hnext
    cases a with
    | migrate self h freshData freshHandler =>
        obtain ⟨hdata, hhandler, hlive⟩ := hok
        obtain ⟨host, p, hl⟩ := hw.linked.leads h hlive
        obtain ⟨hremote, hflag⟩ := hl.remoteRegionHandler
        have hspec := hw.getLocalRegionHandler hdata hhandler hremote
          (hw.sized.sizeOf_remoteRegionHandler hl).symm
        rw [← hflag] at hspec
        rw [← Option.some.inj hnext]
        exact hspec.2.1
    | update fuel fresh h => exact hw.update hok hnext

end Worlds

/-! ## Fields -/

section Fields

theorem reads_any (v : Value) : Reads readAny v.bytes v := by
  intro rest
  have hread : readValue (v.bytes ++ rest) 0 = some v := readValue_append [] v rest
  rw [readAny, hread]
  show some (v, (v.bytes ++ rest).drop v.width) = _
  rw [← length_bytes, List.drop_left]

theorem reads_int (n : Int) : Reads readInt (Value.int n).bytes n := (reads_any _).pick rfl

theorem reads_bool (b : Bool) : Reads readBool (Value.bool b).bytes b := (reads_any _).pick rfl

theorem reads_size (n : Nat) : Reads readSize (Value.size n).bytes n := (reads_any _).pick rfl

theorem reads_element (e : Nat) : Reads readElement (Value.element e).bytes e :=
  (reads_any _).pick rfl

theorem reads_ints (l : List Int) {n : Nat} (hn : n = l.length) :
    Reads (times readInt n) (ints l) l := by
  rw [hn]
  exact Reads.times fun n _ => reads_int n

theorem reads_elements (l : List Nat) {n : Nat} (hn : n = l.length) :
    Reads (times readElement n) (elements l) l := by
  rw [hn]
  exact Reads.times fun e _ => reads_element e

theorem reads_handler (r : RemoteRegionHandler) : Reads readHandler (handlerBytes r) r := by
  have hhost := reads_any (.hostPid r.hostPid)
  have hptr := reads_any (.ptr r.remoteHandler)
  refine (hhost.pick ?_).bind ((hptr.pick ?_).last (reads_pure _))
  · rfl
  · rfl

theorem length_ints (l : List Int) : (ints l).length = 4 * l.length := by
  induction l with
  | nil => rfl
  | cons n l ih =>
      have hcons : ints (n :: l) = (Value.int n).bytes ++ ints l := List.flatMap_cons
      rw [hcons, List.length_append, length_bytes, ih, List.length_cons, Value.width]
      omega

theorem length_elements (l : List Nat) : (elements l).length = 8 * l.length := by
  induction l with
  | nil => rfl
  | cons e l ih =>
      have hcons : elements (e :: l) = (Value.element e).bytes ++ elements l := List.flatMap_cons
      rw [hcons, List.length_append, length_bytes, ih, List.length_cons, Value.width]
      omega

theorem length_handlerBytes (r : RemoteRegionHandler) : (handlerBytes r).length = 20 := by
  rw [handlerBytes, List.length_append, length_bytes, length_bytes]
  rfl

end Fields

/-! ## Regions -/

/-- A region a process can hold: its handler is there, the arrays have the lengths they are
    allocated with, and a wrapper without dimensions has the base its constructors give it. -/
structure Held (w : World) (r : Region) : Prop where
  live : w.regionData r.handler ≠ none
  handlerDimensions : r.view.handlerDimensions = dimensions w r.handler
  splitOffset : r.view.splitOffset.length = r.view.D
  slicePositions : r.view.sliceInfo.slicePositions.length = r.view.sliceInfo.numSliceDimensions
  wrapper : r.view.sourceInfo ≠ none → r.view.size = [] ∧ r.view.splitOffset = [] ∧
    r.view.isTransposed = false ∧ r.view.sliceInfo = ⟨[], []⟩

/-- A `RegionMatrixWrapper<0>` knows its cell: its coordinate has the handler's dimensions. -/
def KnowsCell (w : World) (r : Region) : Prop :=
  ∀ sourceIndex, r.view.sourceInfo = some sourceIndex →
    dimensions w r.handler ≤ sourceIndex.length

/-- The coordinate of the view designates this cell. -/
def Denotes (w : World) (r : Region) (coord : List Int) (cell : Cell) : Prop :=
  ∃ rdCoord fuel, accessed r.view coord = some rdCoord ∧
    w.cellOf fuel r.handler rdCoord = some cell

/-- In another process the region has the same size and designates the same cells. -/
structure SameRegion (w w' : World) (host : HostPid) (r r' : Region) : Prop where
  hostPid : r'.handler.hostPid = host
  size : r'.view.size = r.view.size
  isTransposed : r'.view.isTransposed = r.view.isTransposed
  accessed : ∀ coord, accessed r'.view coord = accessed r.view coord
  denotes : ∀ coord cell, Denotes w r coord cell →
    ∀ cell', Denotes w' r' coord cell' ↔ cell' = cell

/-- A record: what `serialize` wrote, what is read from it, and the two sizes. -/
structure Record (s s' : Hosts) (m : Member) (bytes : Buffer)
    (reader : Reader Byte (Hosts × Member)) (m' : Member) : Prop where
  serialize : m.serialize s = some bytes
  length : bytes.length = m.serialSize s.world
  reads : Reads reader bytes (s', m')
  serialSize : m'.serialSize s'.world = m.serialSize s.world

section Regions

variable {s s₀ : Hosts} {self : HostPid} {fresh : Fresh} {r : Region}

/-- `new` returns addresses where nothing is. -/
structure Fresh.Free (w : World) (hostPid : HostPid) (fresh : Fresh) : Prop where
  data : w.Fresh hostPid fresh.data
  handler : w.handlers ⟨hostPid, fresh.handler⟩ = none

/-- No address but these is used. -/
def UsesOnly (w w' : World) (host : HostPid) (fresh : Fresh) : Prop :=
  ∀ f : Fresh, f.data ≠ fresh.data → f.handler ≠ fresh.handler → f.Free w host → f.Free w' host

theorem usesOnly_getLocalRegionHandler (w : World) (self : HostPid) (fresh : Fresh)
    (r : RemoteRegionHandler) (size : List Int) (isDataSplit : Bool) :
    UsesOnly w (w.getLocalRegionHandler self r size isDataSplit fresh.data fresh.handler).1
      self fresh := by
  intro f hdata hhandler hfree
  rw [World.getLocalRegionHandler]
  split
  · exact hfree
  · cases w.db self r with
    | some q => exact hfree
    | none =>
        show f.Free (w.newReference self r size isDataSplit fresh.data fresh.handler) self
        refine ⟨⟨?_, ?_⟩, ?_⟩
        · show Function.update w.datas self (Function.update (w.datas self) fresh.data _)
            self f.data = none
          rw [Function.update_self, Function.update_of_ne hdata]
          exact hfree.data.1
        · intro g hg
          show Function.update w.handlers ⟨self, fresh.handler⟩ (some fresh.data) g ≠ some f.data
          by_cases hgf : g = ⟨self, fresh.handler⟩
          · rw [hgf, Function.update_self]
            intro heq
            exact hdata (Option.some.inj heq).symm
          · rw [Function.update_of_ne hgf]
            exact hfree.data.2 g hg
        · show Function.update w.handlers ⟨self, fresh.handler⟩ (some fresh.data)
            ⟨self, f.handler⟩ = none
          rw [Function.update_of_ne]
          · exact hfree.handler
          · intro heq
            exact hhandler (RemoteRegionHandler.mk.inj heq).2

/-- What the reader's handler is. -/
theorem getLocalRegionHandler_spec (hw₀ : Consistent s₀.world) (hw : Consistent s.world)
    (hext : Extends s₀.world s.world) (hfree : fresh.Free s.world self)
    {h : RemoteRegionHandler} {host : HostPid} {p : EncodedPtr} (hl : Leads s₀.world h host p)
    (migrationType : Int) :
    let res := s.getLocalRegionHandler self (s₀.world.remoteRegionHandler h)
      (sizeOf s₀.world h) (s₀.world.isDataSplit h) migrationType fresh
    Leads res.1.world res.2 host p ∧ Consistent res.1.world ∧ Extends s.world res.1.world ∧
      UsesOnly s.world res.1.world self fresh ∧ res.2.hostPid = self ∧
      sizeOf res.1.world res.2 = sizeOf s₀.world h := by
  intro res
  obtain ⟨hremote, hflag⟩ := hl.remoteRegionHandler
  have hremote' := hremote.extend hext
  have hsize : sizeOf s₀.world h = sizeOf s.world (s₀.world.remoteRegionHandler h) := by
    rw [sizeOf_extends hext hremote.ne_none, hw₀.sized.sizeOf_remoteRegionHandler hl]
  have hspec := hw.getLocalRegionHandler hfree.data hfree.handler hremote' hsize
  rw [hremote.isDataSplit_extends hext, ← hflag] at hspec
  obtain ⟨hleads, hcons, hext', hself⟩ := hspec
  have hres : res.1.world = (s.world.getLocalRegionHandler self (s₀.world.remoteRegionHandler h)
      (sizeOf s₀.world h) (s₀.world.isDataSplit h) fresh.data fresh.handler).1 ∧
      res.2 = (s.world.getLocalRegionHandler self (s₀.world.remoteRegionHandler h)
      (sizeOf s₀.world h) (s₀.world.isDataSplit h) fresh.data fresh.handler).2 := by
    show (Hosts.getLocalRegionHandler ..).1.world = _ ∧ (Hosts.getLocalRegionHandler ..).2 = _
    rw [Hosts.getLocalRegionHandler]
    constructor
    · split <;> rfl
    · split <;> rfl
  rw [← hres.1, ← hres.2] at hleads
  rw [← hres.1] at hcons hext'
  rw [← hres.2] at hself
  have honly : UsesOnly s.world res.1.world self fresh := by
    rw [hres.1]
    exact usesOnly_getLocalRegionHandler _ _ _ _ _ _
  refine ⟨hleads, hcons, hext', honly, hself, ?_⟩
  have hback := hremote'.extend hext'
  rw [hcons.sized.sizeOf_eq hleads, ← hcons.sized.sizeOf_eq hback,
    sizeOf_extends hext' hremote'.ne_none]
  exact hsize.symm

/-- The view that comes out of a record designates the cells of the one that went in. -/
theorem sameRegion_of {w w' : World} {r r' : Region} {host : HostPid} {p : EncodedPtr}
    (hext : Extends w w') (hl : Leads w r.handler host p) (hl' : Leads w' r'.handler host p)
    (hself : r'.handler.hostPid = self) (hsize : r'.view.size = r.view.size)
    (htr : r'.view.isTransposed = r.view.isTransposed)
    (hacc : ∀ coord, accessed r'.view coord = accessed r.view coord) :
    SameRegion w w' self r r' := by
  refine ⟨hself, hsize, htr, hacc, ?_⟩
  rintro coord cell ⟨rdCoord, fuel, hrd, hcell⟩ cell'
  -- both handlers lead to the same data, so that the cell is found from either
  obtain ⟨fuel₁, hcell₁⟩ := cellOf_extends hext _ _ _ _ hcell
  obtain ⟨fuel₂, hcell₂⟩ := Leads.cellOf (hl.extend hext) hl' hcell₁
  constructor
  · rintro ⟨rdCoord', fuel', hrd', hcell'⟩
    rw [hacc, hrd] at hrd'
    rw [← Option.some.inj hrd'] at hcell'
    exact cellOf_unique hcell' hcell₂
  · rintro rfl
    exact ⟨rdCoord, fuel₂, (hacc coord).trans hrd, hcell₂⟩

/-- A wrapper without dimensions reads the coordinate as far as its handler's dimensions. -/
theorem accessed_wrapper {v : RegionMatrix} {sourceIndex : List Int}
    (hsrc : v.sourceInfo = some sourceIndex) (hle : v.handlerDimensions ≤ sourceIndex.length)
    (coord : List Int) :
    accessed { v with sourceInfo := some (sourceIndex.take v.handlerDimensions) } coord =
      accessed v coord := by
  have hlen : (sourceIndex.take v.handlerDimensions).length = v.handlerDimensions :=
    List.length_take_of_le hle
  rw [accessed, accessed, hsrc]
  show (if (sourceIndex.take v.handlerDimensions).length < v.handlerDimensions then none
    else some ((sourceIndex.take v.handlerDimensions).take v.handlerDimensions)) =
    if sourceIndex.length < v.handlerDimensions then none
    else some (sourceIndex.take v.handlerDimensions)
  rw [if_neg (by omega), if_neg (by omega), List.take_take, Nat.min_self]

theorem copy_of_length {a : List Int} {n : Nat} (h : a.length = n) : copy n a = some a := by
  rw [copy, if_neg (by omega), ← h, List.take_length]

/-- The record of a `RegionMatrix`. -/
def recordOf (s : Hosts) (r : Region) : Buffer :=
  (Value.int r.view.D).bytes ++ (ints r.view.size ++ (ints r.view.splitOffset ++
    ((Value.int r.view.sliceInfo.numSliceDimensions).bytes ++
    (ints r.view.sliceInfo.sliceDimensions ++ (ints r.view.sliceInfo.slicePositions ++
    ((Value.bool r.view.isTransposed).bytes ++
    ((Value.int (dimensions s.world r.handler)).bytes ++ (ints (sizeOf s.world r.handler) ++
    (handlerBytes (s.world.remoteRegionHandler r.handler) ++
    ((Value.bool (s.world.isDataSplit r.handler)).bytes ++
    (Value.int (s.migrationType r.handler)).bytes))))))))))

theorem serialize_recordOf (hsrc : r.view.sourceInfo = none) (hr : Held s.world r) :
    r.serialize s = some (recordOf s r) := by
  have hdims : copy r.view.sliceInfo.numSliceDimensions r.view.sliceInfo.sliceDimensions =
      some r.view.sliceInfo.sliceDimensions := copy_of_length rfl
  rw [Region.serialize]
  simp only [hsrc]
  rw [show copy r.view.D r.view.size = some r.view.size from copy_of_length rfl,
    copy_of_length hr.splitOffset, hdims, copy_of_length hr.slicePositions]
  simp only [Option.bind_eq_bind, Option.bind_some, List.append_assoc]
  rfl

theorem length_recordOf (hsrc : r.view.sourceInfo = none) (hr : Held s.world r) :
    (recordOf s r).length = r.serialSize s.world := by
  have hsize : r.view.size.length = r.view.D := rfl
  have hdims : r.view.sliceInfo.sliceDimensions.length =
      r.view.sliceInfo.numSliceDimensions := rfl
  have hhandler : (sizeOf s.world r.handler).length = dimensions s.world r.handler := rfl
  rw [recordOf, Region.serialSize, hsrc]
  simp only [List.length_append, length_bytes, length_ints, length_handlerBytes, Value.width,
    hr.splitOffset, hr.slicePositions, hsize, hdims, hhandler]
  omega

theorem reads_recordOf (hr : Held s₀.world r) {res : Hosts × RemoteRegionHandler}
    (hres : s.getLocalRegionHandler self (s₀.world.remoteRegionHandler r.handler)
      (sizeOf s₀.world r.handler) (s₀.world.isDataSplit r.handler)
      (s₀.migrationType r.handler) fresh = res) :
    Reads (unserialize self fresh r.view.D s) (recordOf s₀ r)
      (res.1, ⟨⟨dimensions res.1.world res.2, r.view.size, r.view.splitOffset,
        r.view.isTransposed, r.view.sliceInfo, none⟩, res.2⟩) := by
  subst hres
  refine (reads_int _).bind ((reads_check rfl).bind_nil ?_)
  refine (reads_ints _ rfl).bind ((reads_ints _ hr.splitOffset.symm).bind ?_)
  refine (reads_int _).bind ((reads_ints _ rfl).bind ((reads_ints _ hr.slicePositions.symm).bind ?_))
  refine (reads_bool _).bind ((reads_int _).bind ((reads_ints _ rfl).bind ?_))
  exact (reads_handler _).bind ((reads_bool _).bind ((reads_int _).last (reads_pure _)))

/-- The record of a `RegionMatrixWrapper<0>`. -/
def record0DOf (s : Hosts) (r : Region) (sourceIndex : List Int) : Buffer :=
  (Value.int 0).bytes ++ ((Value.int (dimensions s.world r.handler)).bytes ++
    (ints (sizeOf s.world r.handler) ++
    (ints (sourceIndex.take (dimensions s.world r.handler)) ++
    (handlerBytes (s.world.remoteRegionHandler r.handler) ++
    (Value.bool (s.world.isDataSplit r.handler)).bytes))))

theorem serialize_record0DOf {sourceIndex : List Int} (hsrc : r.view.sourceInfo = some sourceIndex)
    (hle : dimensions s.world r.handler ≤ sourceIndex.length) :
    r.serialize s = some (record0DOf s r sourceIndex) := by
  rw [Region.serialize]
  simp only [hsrc]
  rw [copy, if_neg (Nat.not_lt.mpr hle)]
  simp only [Option.bind_eq_bind, Option.bind_some, List.append_assoc]
  rfl

theorem length_record0DOf {sourceIndex : List Int} (hsrc : r.view.sourceInfo = some sourceIndex)
    (hle : dimensions s.world r.handler ≤ sourceIndex.length) :
    (record0DOf s r sourceIndex).length = r.serialSize s.world := by
  have hhandler : (sizeOf s.world r.handler).length = dimensions s.world r.handler := rfl
  rw [record0DOf, Region.serialSize, hsrc]
  simp only [List.length_append, length_bytes, length_ints, length_handlerBytes, Value.width,
    List.length_take_of_le hle, hhandler]
  omega

theorem reads_record0DOf {sourceIndex : List Int}
    (hle : dimensions s₀.world r.handler ≤ sourceIndex.length)
    {res : Hosts × RemoteRegionHandler}
    (hres : s.getLocalRegionHandler self (s₀.world.remoteRegionHandler r.handler)
      (sizeOf s₀.world r.handler) (s₀.world.isDataSplit r.handler) 0 fresh = res) :
    Reads (unserialize0D self fresh s) (record0DOf s₀ r sourceIndex)
      (res.1, ⟨⟨dimensions res.1.world res.2, [], [], false, ⟨[], []⟩,
        some (sourceIndex.take (dimensions s₀.world r.handler))⟩, res.2⟩) := by
  subst hres
  refine (reads_int _).bind ((reads_check rfl).bind_nil ?_)
  refine (reads_int _).bind ((reads_ints _ rfl).bind ?_)
  refine (reads_ints _ (List.length_take_of_le hle).symm).bind ?_
  exact (reads_handler _).bind ((reads_bool _).last (reads_pure _))

/-- **A REGION**: its record has the announced length, is read back whatever follows, and the
    region that comes out designates the same cells. -/
theorem Held.round_trip (hw₀ : Consistent s₀.world) (hw : Consistent s.world)
    (hext : Extends s₀.world s.world) (hfree : fresh.Free s.world self)
    (hr : Held s₀.world r) (hknows : KnowsCell s₀.world r) :
    ∃ bytes s' r',
      Record s₀ s' (.region r) bytes ((Member.region r).type.unserialize self fresh s)
        (.region r') ∧
      Consistent s'.world ∧ Extends s.world s'.world ∧ UsesOnly s.world s'.world self fresh ∧
      SameRegion s₀.world s'.world self r r' := by
  obtain ⟨host, p, hl⟩ := hw₀.linked.leads _ hr.live
  cases hsrc : r.view.sourceInfo with
  | none =>
      have hspec := getLocalRegionHandler_spec hw₀ hw hext hfree hl (s₀.migrationType r.handler)
      generalize hres : s.getLocalRegionHandler self (s₀.world.remoteRegionHandler r.handler)
        (sizeOf s₀.world r.handler) (s₀.world.isDataSplit r.handler)
        (s₀.migrationType r.handler) fresh = res at hspec
      obtain ⟨hleads, hcons, hext', honly, hself, hsize⟩ := hspec
      have hreads := reads_recordOf hr hres
      have hdim : dimensions res.1.world res.2 = r.view.handlerDimensions := by
        rw [hr.handlerDimensions, dimensions, dimensions, hsize]
      rw [hdim, ← hsrc] at hreads
      refine ⟨recordOf s₀ r, res.1, ⟨r.view, res.2⟩, ⟨serialize_recordOf hsrc hr,
        length_recordOf hsrc hr, ?_, ?_⟩, hcons, hext', honly, ?_⟩
      · rw [Member.type, hsrc]
        exact hreads.last (reads_pure _)
      · show Region.serialSize res.1.world ⟨r.view, res.2⟩ = r.serialSize s₀.world
        rw [Region.serialSize, Region.serialSize, dimensions, dimensions, hsize]
      · exact sameRegion_of (hext.trans hext') hl hleads hself rfl rfl fun _ => rfl
  | some sourceIndex =>
      have hle := hknows sourceIndex hsrc
      obtain ⟨hsize0, hoff0, htr0, hslice0⟩ := hr.wrapper (by rw [hsrc]; exact Option.some_ne_none _)
      have hspec := getLocalRegionHandler_spec hw₀ hw hext hfree hl 0
      generalize hres : s.getLocalRegionHandler self (s₀.world.remoteRegionHandler r.handler)
        (sizeOf s₀.world r.handler) (s₀.world.isDataSplit r.handler) 0 fresh = res at hspec
      obtain ⟨hleads, hcons, hext', honly, hself, hsize⟩ := hspec
      have hreads := reads_record0DOf hle hres
      have hdim : dimensions res.1.world res.2 = r.view.handlerDimensions := by
        rw [hr.handlerDimensions, dimensions, dimensions, hsize]
      have hview : (⟨r.view.handlerDimensions, [], [], false, ⟨[], []⟩,
          some (sourceIndex.take r.view.handlerDimensions)⟩ : RegionMatrix) =
          ⟨r.view.handlerDimensions, r.view.size, r.view.splitOffset, r.view.isTransposed,
            r.view.sliceInfo, some (sourceIndex.take r.view.handlerDimensions)⟩ := by
        rw [hsize0, hoff0, htr0, hslice0]
      rw [← hr.handlerDimensions, hdim, hview] at hreads
      refine ⟨record0DOf s₀ r sourceIndex, res.1,
        ⟨{ r.view with sourceInfo := some (sourceIndex.take r.view.handlerDimensions) }, res.2⟩,
        ⟨serialize_record0DOf hsrc hle, length_record0DOf hsrc hle, ?_, ?_⟩, hcons, hext',
        honly, ?_⟩
      · rw [Member.type, hsrc]
        exact hreads.last (reads_pure _)
      · show 4 + 4 + 4 * dimensions res.1.world res.2 + 4 * dimensions res.1.world res.2 + 20 + 1 =
          r.serialSize s₀.world
        rw [Region.serialSize, hsrc, dimensions, hsize]
        rfl
      · refine sameRegion_of (hext.trans hext') hl hleads hself rfl rfl ?_
        exact accessed_wrapper hsrc (by rw [hr.handlerDimensions]; exact hle)

/-- A `RegionMatrixWrapper<0>` that does not know its cell cannot be serialized. -/
theorem serialize_of_not_knowsCell (h : ¬KnowsCell s.world r) : r.serialize s = none := by
  obtain ⟨sourceIndex, hnot⟩ := not_forall.mp h
  obtain ⟨hsrc, hlt⟩ := Classical.not_imp.mp hnot
  rw [Region.serialize]
  simp only [hsrc]
  rw [copy, if_pos (Nat.not_le.mp hlt)]
  rfl

end Regions

/-! ## Tasks -/

/-- What a member must be for a process to hold it. -/
def Member.Held (w : World) : Member → Prop
  | .region r => PbRegionSerial.Held w r
  | _ => True

/-- A region knows its cell; other members have none. -/
def Member.KnowsCell (w : World) : Member → Prop
  | .region r => PbRegionSerial.KnowsCell w r
  | _ => True

/-- The member that came out is the one that went in: a region has the same cells, other
    members the same value. -/
inductive SameMember (w w' : World) (host : HostPid) : Member → Member → Prop
  | region {r r' : Region} : SameRegion w w' host r r' →
      SameMember w w' host (.region r) (.region r')
  | value {m : Member} : SameMember w w' host m m

/-- Adding handlers changes nothing for a member. -/
theorem SameMember.extend {w w' w'' : World} {host : HostPid} {m m' : Member}
    (h : SameMember w w' host m m') (hext : Extends w' w'') : SameMember w w'' host m m' := by
  cases h with
  | value => exact .value
  | @region r r' h =>
      refine .region ⟨h.hostPid, h.size, h.isTransposed, h.accessed, ?_⟩
      intro coord cell hcell cell'
      obtain ⟨rdCoord, fuel, hrd, hc⟩ := (h.denotes coord cell hcell cell).mpr rfl
      obtain ⟨fuel', hc'⟩ := cellOf_extends hext _ _ _ _ hc
      constructor
      · rintro ⟨rdCoord', fuel'', hrd', hc''⟩
        rw [hrd] at hrd'
        rw [← Option.some.inj hrd'] at hc''
        exact cellOf_unique hc'' hc'
      · rintro rfl
        exact ⟨rdCoord, fuel', hrd, hc'⟩

section Members

variable {s s₀ : Hosts} {self : HostPid} {fresh : Fresh}

/-- **A MEMBER** of any type. -/
theorem Member.round_trip {m : Member} (hw₀ : Consistent s₀.world) (hw : Consistent s.world)
    (hext : Extends s₀.world s.world) (hfree : fresh.Free s.world self)
    (hm : m.Held s₀.world) (hknows : m.KnowsCell s₀.world) :
    ∃ bytes s' m', Record s₀ s' m bytes (m.type.unserialize self fresh s) m' ∧
      Consistent s'.world ∧ Extends s.world s'.world ∧ UsesOnly s.world s'.world self fresh ∧
      SameMember s₀.world s'.world self m m' := by
  have hvalue : ∀ bytes, m.serialize s₀ = some bytes → bytes.length = m.serialSize s₀.world →
      Reads (m.type.unserialize self fresh s) bytes (s, m) →
      m.serialSize s.world = m.serialSize s₀.world →
      ∃ bytes s' m', Record s₀ s' m bytes (m.type.unserialize self fresh s) m' ∧
        Consistent s'.world ∧ Extends s.world s'.world ∧ UsesOnly s.world s'.world self fresh ∧
        SameMember s₀.world s'.world self m m' := by
    intro bytes h1 h2 h3 h4
    exact ⟨bytes, s, m, ⟨h1, h2, h3, h4⟩, hw, Extends.refl _, fun _ _ _ hf => hf, .value⟩
  cases m with
  | region r =>
      obtain ⟨bytes, s', r', hrec, hcons, hext', honly, hsame⟩ :=
        PbRegionSerial.Held.round_trip hw₀ hw hext hfree hm hknows
      exact ⟨bytes, s', .region r', hrec, hcons, hext', honly, .region hsame⟩
  | constRegion0D value =>
      exact hvalue _ rfl (length_bytes _) ((reads_element value).last (reads_pure _)) rfl
  | int n => exact hvalue _ rfl (length_bytes _) ((reads_int n).last (reads_pure _)) rfl
  | double e => exact hvalue _ rfl (length_bytes _) ((reads_element e).last (reads_pure _)) rfl
  | vectorInt v =>
      refine hvalue _ rfl ?_ ?_ rfl
      · rw [List.length_append, length_bytes, length_ints]
        rfl
      · exact (reads_size _).bind ((reads_ints v rfl).last (reads_pure _))
  | vectorDouble v =>
      refine hvalue _ rfl ?_ ?_ rfl
      · rw [List.length_append, length_bytes, length_elements]
        rfl
      · exact (reads_size _).bind ((reads_elements v rfl).last (reads_pure _))
  | dynamicTaskPtr => exact hvalue [] rfl rfl (reads_pure _) rfl

/-- A record of the announced length stays as it is. -/
theorem place_length (bytes : Buffer) : place bytes.length bytes = bytes := by
  rw [place, List.take_length, Nat.sub_self, List.replicate_zero, List.append_nil]

end Members

/-- The addresses for the members of a task are free, and no two of them are the same. -/
def AllFree (w : World) (self : HostPid) (fs : List Fresh) : Prop :=
  (∀ f ∈ fs, f.Free w self) ∧
    fs.Pairwise fun f f' => f.data ≠ f'.data ∧ f.handler ≠ f'.handler

/-- The record of a member has exactly the announced bytes; in another process, whatever
    follows, exactly these are taken, as many as the member announces there, and the member is
    what it was. -/
def RecordRoundTrip (s : Hosts) (self : HostPid) (m : Member) : Prop :=
  ∃ record, m.serialize s = some record ∧ record.length = m.serialSize s.world ∧
    ∀ fresh : Fresh, fresh.Free s.world self →
      ∃ s' m', Reads (m.type.unserialize self fresh s) record (s', m') ∧
        m'.serialSize s'.world = record.length ∧ SameMember s.world s'.world self m m'

/-- The task is written in exactly the announced bytes, is read back from them, whatever
    follows, and every member is what it was. -/
def TaskRoundTrip (s : Hosts) (self : HostPid) (ms : List Member) (fs : List Fresh) : Prop :=
  ∃ bytes, serializeAll s ms = some bytes ∧ bytes.length = serialSizeAll s.world ms ∧
    ∃ s' ms', (∀ rest, unserializeAll self ((ms.map Member.type).zip fs) s (bytes ++ rest) =
        some ((s', ms'), rest)) ∧
      List.Forall₂ (SameMember s.world s'.world self) ms ms'

theorem Member.recordRoundTrip {s : Hosts} {self : HostPid} {m : Member}
    (hw : Consistent s.world) (hm : m.Held s.world) (hknows : m.KnowsCell s.world)
    {fresh : Fresh} (hfree : fresh.Free s.world self) : RecordRoundTrip s self m := by
  obtain ⟨record, _, _, hrec, _⟩ := m.round_trip hw hw (Extends.refl _) hfree hm hknows
  refine ⟨record, hrec.serialize, hrec.length, ?_⟩
  intro fresh' hfree'
  obtain ⟨record', s', m', hrec', _, _, _, hsame⟩ :=
    m.round_trip hw hw (Extends.refl _) hfree' hm hknows
  -- the record does not depend on the addresses
  have heq : record' = record := Option.some.inj (hrec'.serialize.symm.trans hrec.serialize)
  subst heq
  exact ⟨s', m', hrec'.reads, hrec'.serialSize.trans hrec.length.symm, hsame⟩

/-- **A TASK**: members one after the other, read in a process where others were read
    before. -/
theorem unserializeAll_serializeAll {s₀ s : Hosts} {self : HostPid} {ms : List Member}
    {fs : List Fresh} (hw₀ : Consistent s₀.world) (hw : Consistent s.world)
    (hext : Extends s₀.world s.world) (hlen : fs.length = ms.length)
    (hfree : AllFree s.world self fs) (hms : ∀ m ∈ ms, m.Held s₀.world)
    (hknows : ∀ m ∈ ms, m.KnowsCell s₀.world) :
    ∃ bytes, serializeAll s₀ ms = some bytes ∧ bytes.length = serialSizeAll s₀.world ms ∧
      ∃ s' ms', (∀ rest, unserializeAll self ((ms.map Member.type).zip fs) s (bytes ++ rest) =
          some ((s', ms'), rest)) ∧
        Extends s.world s'.world ∧
        List.Forall₂ (SameMember s₀.world s'.world self) ms ms' := by
  induction ms generalizing s fs with
  | nil => exact ⟨[], rfl, rfl, s, [], fun _ => rfl, Extends.refl _, .nil⟩
  | cons m ms ih =>
      cases fs with
      | nil => exact nomatch hlen
      | cons f fs =>
          obtain ⟨hall, hpair⟩ := hfree
          obtain ⟨hne, hpair⟩ := List.pairwise_cons.mp hpair
          obtain ⟨record, s', m', hrec, hcons, hext', honly, hsame⟩ :=
            m.round_trip hw₀ hw hext (hall f List.mem_cons_self) (hms m List.mem_cons_self)
              (hknows m List.mem_cons_self)
          -- the member took the first address only, so that the others are still free
          have hfree' : AllFree s'.world self fs := by
            refine ⟨fun g hg => ?_, hpair⟩
            obtain ⟨hdata, hhandler⟩ := hne g hg
            exact honly g hdata.symm hhandler.symm (hall g (List.mem_cons_of_mem f hg))
          obtain ⟨bytes, hser, hbytes, s'', ms', hread, hext'', hsames⟩ :=
            ih hcons (hext.trans hext') (Nat.succ.inj hlen) hfree'
              (fun n hn => hms n (List.mem_cons_of_mem m hn))
              (fun n hn => hknows n (List.mem_cons_of_mem m hn))
          refine ⟨record ++ bytes, ?_, ?_, s'', m' :: ms', ?_, hext'.trans hext'',
            .cons (hsame.extend hext'') hsames⟩
          · rw [serializeAll, hrec.serialize, hser, ← hrec.length]
            show some (place record.length record ++ bytes) = _
            rw [place_length]
          · rw [List.length_append, hbytes, hrec.length]
            rfl
          · intro rest
            -- the reader moves on by what the member it made announces
            have hdrop : (record ++ (bytes ++ rest)).drop (m'.serialSize s'.world) =
                bytes ++ rest := by
              rw [hrec.serialSize, ← hrec.length, List.drop_left]
            rw [List.map_cons, List.zip_cons_cons, unserializeAll, List.append_assoc, hrec.reads]
            show (unserializeAll self _ s' ((record ++ (bytes ++ rest)).drop _)).bind _ = _
            rw [hdrop, hread]
            rfl

/-- **MIGRATED TASKS**: for every task whose members a process can hold, in every consistent
    world, each member's record and the task as a whole make the round trip if and only if
    every `RegionMatrixWrapper<0>` among them knows its cell. -/
theorem task_round_trip_iff (s : Hosts) (self : HostPid) (ms : List Member) (fs : List Fresh)
    (hw : Consistent s.world) (hms : ∀ m ∈ ms, m.Held s.world) (hlen : fs.length = ms.length)
    (hfree : AllFree s.world self fs) :
    (∀ m ∈ ms, RecordRoundTrip s self m) ∧ TaskRoundTrip s self ms fs ↔
      ∀ m ∈ ms, m.KnowsCell s.world := by
  constructor
  · rintro ⟨hrecords, -⟩ m hm
    obtain ⟨record, hser, -⟩ := hrecords m hm
    cases m with
    | region r =>
        -- copying the position stops before the record is complete
        by_contra hnot
        have hnone : Member.serialize s (.region r) = none := serialize_of_not_knowsCell hnot
        rw [hnone] at hser
        exact nomatch hser
    | constRegion0D | int | double | vectorInt | vectorDouble | dynamicTaskPtr => trivial
  · intro hknows
    obtain ⟨bytes, hser, hbytes, s', ms', hread, _, hsames⟩ :=
      unserializeAll_serializeAll hw hw (Extends.refl _) hlen hfree hms hknows
    refine ⟨fun m hm => ?_, bytes, hser, hbytes, s', ms', hread, hsames⟩
    -- some address is free, that of the first member
    cases fs with
    | nil =>
        rw [List.length_eq_zero_iff.mp hlen.symm] at hm
        exact nomatch hm
    | cons f fs =>
        exact m.recordRoundTrip hw (hms m hm) (hknows m hm) (hfree.1 f List.mem_cons_self)

/-- Process 1 has data of three cells at handler 10. -/
def oneRow : Hosts where
  world :=
    { handlers := fun h => if h = ⟨1, 10⟩ then some 11 else none
      datas := fun host p => if host = 1 ∧ p = 11 then some (.raw [3]) else none
      db := fun _ _ => none }
  migrationType _ := 0

theorem oneRow_consistent : Consistent oneRow.world := by
  have hdata : ∀ h p d, oneRow.world.regionData h = some (p, d) → d = .raw [3] := by
    intro h p d hd
    have hd' := oneRow.world.datas_of_regionData hd
    change (if h.hostPid = 1 ∧ p = 11 then some (RegionData.raw [3]) else none) = some d at hd'
    split at hd'
    · exact (Option.some.inj hd').symm
    · exact nomatch hd'
  refine consistent_init ?_ fun _ _ => rfl
  intro h p d hd
  rw [hdata h p d hd]
  rfl

/-- Addresses of process 2, where nothing is. -/
theorem oneRow_free (f : Fresh) : f.Free oneRow.world 2 := by
  have hnone : ∀ g : RemoteRegionHandler, g.hostPid = 2 → oneRow.world.handlers g = none := by
    intro g hg
    refine if_neg ?_
    rintro rfl
    exact nomatch hg
  refine ⟨⟨?_, ?_⟩, hnone _ rfl⟩
  · show (if (2 : Nat) = 1 ∧ f.data = 11 then some (RegionData.raw [3]) else none) = none
    exact if_neg fun h => nomatch h.1
  intro g hg
  rw [hnone g hg]
  exact nofun

/-- The last two cells of the row, a number, and its third cell. -/
def rowTask : List Member :=
  [.region ⟨⟨1, [2], [1], false, ⟨[], []⟩, none⟩, ⟨1, 10⟩⟩, .int 7,
    .region ⟨⟨1, [], [], false, ⟨[], []⟩, some [2]⟩, ⟨1, 10⟩⟩]

theorem task_round_trip_iff_rowTask :
    ((∀ m ∈ rowTask, RecordRoundTrip oneRow 2 m) ∧
      TaskRoundTrip oneRow 2 rowTask [⟨21, 31⟩, ⟨22, 32⟩, ⟨23, 33⟩]) ∧
    ((∀ m ∈ rowTask, RecordRoundTrip oneRow 2 m) ∧
      TaskRoundTrip oneRow 2 rowTask [⟨21, 31⟩, ⟨22, 32⟩, ⟨23, 33⟩] ↔
        ∀ m ∈ rowTask, m.KnowsCell oneRow.world) := by
  have hheld : ∀ m ∈ rowTask, m.Held oneRow.world := by
    intro m hm
    rcases List.mem_cons.mp hm with rfl | hm
    · exact ⟨by decide, rfl, rfl, rfl, fun h => absurd rfl h⟩
    rcases List.mem_cons.mp hm with rfl | hm
    · trivial
    · obtain rfl := List.mem_singleton.mp hm
      exact ⟨by decide, rfl, rfl, rfl, fun _ => ⟨rfl, rfl, rfl, rfl⟩⟩
  have hiff := task_round_trip_iff oneRow 2 rowTask [⟨21, 31⟩, ⟨22, 32⟩, ⟨23, 33⟩]
    oneRow_consistent hheld rfl ⟨fun f _ => oneRow_free f, by simp⟩
  refine ⟨hiff.mpr ?_, hiff⟩
  intro m hm
  rcases List.mem_cons.mp hm with rfl | hm
  · intro src hsrc
    exact nomatch hsrc
  rcases List.mem_cons.mp hm with rfl | hm
  · trivial
  · obtain rfl := List.mem_singleton.mp hm
    intro src hsrc
    obtain rfl := Option.some.inj hsrc
    decide

/-- What `slice(0, 1)` makes of the row: a wrapper that dropped the position. -/
def slicedRow : RegionMatrix := ⟨1, [], [], false, ⟨[], []⟩, some []⟩

theorem sliced_row_not_serialized :
    slice (whole [3]) 0 1 = some slicedRow ∧
    ¬ ∀ (s : Hosts) (self : HostPid) (ms : List Member) (fs : List Fresh),
      Consistent s.world → (∀ m ∈ ms, m.Held s.world) → fs.length = ms.length →
      AllFree s.world self fs →
        (∀ m ∈ ms, RecordRoundTrip s self m) ∧ TaskRoundTrip s self ms fs := by
  refine ⟨by decide, ?_⟩
  intro hclaim
  obtain ⟨-, bytes, hser, -⟩ := hclaim oneRow 2 [.region ⟨slicedRow, ⟨1, 10⟩⟩] [⟨21, 31⟩]
    oneRow_consistent (fun m hm => by
      obtain rfl := List.mem_singleton.mp hm
      exact ⟨by decide, rfl, rfl, rfl, fun _ => ⟨rfl, rfl, rfl, rfl⟩⟩)
    rfl ⟨fun f _ => oneRow_free f, List.pairwise_singleton ..⟩
  have hnone : serializeAll oneRow [.region ⟨slicedRow, ⟨1, 10⟩⟩] = none := by decide
  rw [hnone] at hser
  exact nomatch hser

end PbRegionSerial
