import Mathlib.Algebra.GroupWithZero.Nat
import PetaBricks.ForwardingProofs
import PetaBricks.HandlerChainProofs
import PetaBricks.ReaderProofs
import PetaBricks.RegionMatrixModel

/-! # Region serialisation — the records of a migrated task

    `serialize`, `unserialize` and `serialSize` of `RegionMatrix` and of the two
    `RegionMatrixWrapper<0>`, and the three functions `generateMigrationFunctions` writes for
    a task: they go through its members one after the other, and move on by `serialSize()`.

    Memory is a list of value fragments (`PbForwarding.Buffer`).  A `memcpy` beyond an array
    has no value. -/

namespace PbRegionSerial

open PbReader PbRegionMatrix
open PbForwarding (Byte Buffer Value readValue)
open PbHandlerChain (World RemoteRegionHandler HostPid EncodedPtr)

/-! ## Regions and hosts -/

/-- `RegionHandler::size()`. -/
def sizeOf (w : World) (h : RemoteRegionHandler) : List Int :=
  ((w.regionData h).map fun d => d.2.size).getD []

/-- `RegionHandler::dimensions()`. -/
def dimensions (w : World) (h : RemoteRegionHandler) : Nat := (sizeOf w h).length

/-- What the processes hold, with the `_migrationType` of each handler. -/
structure Hosts where
  world : World
  migrationType : RemoteRegionHandler → Int

/-- The addresses of the objects that `new` returns next, of region data and of a handler. -/
structure Fresh where
  data : EncodedPtr
  handler : EncodedPtr

/-- `RegionHandlerDB::getLocalRegionHandler` in process `self`. -/
def Hosts.getLocalRegionHandler (s : Hosts) (self : HostPid) (r : RemoteRegionHandler)
    (size : List Int) (isDataSplit : Bool) (dataMigrationType : Int) (fresh : Fresh) :
    Hosts × RemoteRegionHandler :=
  let res := s.world.getLocalRegionHandler self r size isDataSplit fresh.data fresh.handler
  if r.hostPid = self ∨ (s.world.db self r).isSome then (⟨res.1, s.migrationType⟩, res.2)
  else (⟨res.1, Function.update s.migrationType res.2 dataMigrationType⟩, res.2)

/-- A region of a process: a view, and where its handler is. -/
structure Region where
  view : RegionMatrix
  handler : RemoteRegionHandler

/-! ## Fields -/

def ints (l : List Int) : Buffer := l.flatMap fun n => (Value.int n).bytes

def elements (l : List Nat) : Buffer := l.flatMap fun e => (Value.element e).bytes

/-- A `RemoteRegionHandler`. -/
def handlerBytes (r : RemoteRegionHandler) : Buffer :=
  (Value.hostPid r.hostPid).bytes ++ (Value.ptr r.remoteHandler).bytes

/-- The value at the front. -/
def readAny : Reader Byte Value := fun buf =>
  (readValue buf 0).map fun v => (v, buf.drop v.width)

def readInt : Reader Byte Int := pick readAny fun
  | .int n => some n
  | _ => none

def readBool : Reader Byte Bool := pick readAny fun
  | .bool b => some b
  | _ => none

def readSize : Reader Byte Nat := pick readAny fun
  | .size n => some n
  | _ => none

def readElement : Reader Byte Nat := pick readAny fun
  | .element e => some e
  | _ => none

def readHandler : Reader Byte RemoteRegionHandler := do
  let hostPid ← pick readAny fun
    | .hostPid h => some h
    | _ => none
  let remoteHandler ← pick readAny fun
    | .ptr p => some p
    | _ => none
  pure ⟨hostPid, remoteHandler⟩

/-! ## Regions -/

/-- `serialSize()`. -/
def Region.serialSize (w : World) (r : Region) : Nat :=
  match r.view.sourceInfo with
  | none =>
      4 + 4 * r.view.D + 4 * r.view.D + 4 + 4 * r.view.sliceInfo.numSliceDimensions +
        4 * r.view.sliceInfo.numSliceDimensions + 1 + 4 + 4 * dimensions w r.handler + 20 + 1 + 4
  | some _ => 4 + 4 + 4 * dimensions w r.handler + 4 * dimensions w r.handler + 20 + 1

/-- `serialize(buf, host)`: what is written. -/
def Region.serialize (s : Hosts) (r : Region) : Option Buffer :=
  let regionHandlerSize := sizeOf s.world r.handler
  let remoteRegionHandler := s.world.remoteRegionHandler r.handler
  let isDataSplit := s.world.isDataSplit r.handler
  match r.view.sourceInfo with
  | none => do
      let numSliceDimensions := r.view.sliceInfo.numSliceDimensions
      let size ← copy r.view.D r.view.size
      let splitOffset ← copy r.view.D r.view.splitOffset
      let sliceDimensions ← copy numSliceDimensions r.view.sliceInfo.sliceDimensions
      let slicePositions ← copy numSliceDimensions r.view.sliceInfo.slicePositions
      pure ((Value.int r.view.D).bytes ++ ints size ++ ints splitOffset ++
        (Value.int numSliceDimensions).bytes ++ ints sliceDimensions ++ ints slicePositions ++
        (Value.bool r.view.isTransposed).bytes ++
        (Value.int (dimensions s.world r.handler)).bytes ++ ints regionHandlerSize ++
        handlerBytes remoteRegionHandler ++ (Value.bool isDataSplit).bytes ++
        (Value.int (s.migrationType r.handler)).bytes)
  | some sourceIndex => do
      let sourceIndex ← copy (dimensions s.world r.handler) sourceIndex
      pure ((Value.int 0).bytes ++ (Value.int (dimensions s.world r.handler)).bytes ++
        ints regionHandlerSize ++ ints sourceIndex ++ handlerBytes remoteRegionHandler ++
        (Value.bool isDataSplit).bytes)

/-- `unserialize(buf, host)` of a `RegionMatrix<D>` in process `self`. -/
def unserialize (self : HostPid) (fresh : Fresh) (D : Nat) (s : Hosts) :
    Reader Byte (Hosts × Region) := do
  let d ← readInt
  check (d = D)
  let size ← times readInt D
  let splitOffset ← times readInt D
  let numSliceDimensions ← readInt
  let sliceDimensions ← times readInt numSliceDimensions.toNat
  let slicePositions ← times readInt numSliceDimensions.toNat
  let isTransposed ← readBool
  let regionHandlerDimensions ← readInt
  let regionHandlerSize ← times readInt regionHandlerDimensions.toNat
  let remoteRegionHandler ← readHandler
  let isDataSplit ← readBool
  let migrationType ← readInt
  let (s', handler) := s.getLocalRegionHandler self remoteRegionHandler regionHandlerSize
    isDataSplit migrationType fresh
  let view : RegionMatrix :=
    { handlerDimensions := dimensions s'.world handler
      size := size
      splitOffset := splitOffset
      isTransposed := isTransposed
      sliceInfo := ⟨sliceDimensions, slicePositions⟩
      sourceInfo := none }
  pure (s', ⟨view, handler⟩)

/-- `unserialize(buf, host)` of the `RegionMatrixWrapper<0>`. -/
def unserialize0D (self : HostPid) (fresh : Fresh) (s : Hosts) :
    Reader Byte (Hosts × Region) := do
  let d ← readInt
  check (d = 0)
  let regionHandlerDimensions ← readInt
  let regionHandlerSize ← times readInt regionHandlerDimensions.toNat
  let sourceIndex ← times readInt regionHandlerDimensions.toNat
  let remoteRegionHandler ← readHandler
  let isDataSplit ← readBool
  -- the migration type that is given is `false`
  let (s', handler) := s.getLocalRegionHandler self remoteRegionHandler regionHandlerSize
    isDataSplit 0 fresh
  let view : RegionMatrix :=
    { handlerDimensions := dimensions s'.world handler
      size := []
      splitOffset := []
      isTransposed := false
      sliceInfo := ⟨[], []⟩
      sourceInfo := some sourceIndex }
  pure (s', ⟨view, handler⟩)

/-! ## Tasks -/

/-- The types of members that tasks are migrated with; `IndexT` is `int`. -/
inductive MemberType
  | regionMatrix (D : Nat)
  | regionMatrix0D
  | constRegionMatrix0D
  | int
  | double
  | vectorInt
  | vectorDouble
  | dynamicTaskPtr
  deriving DecidableEq, Repr

/-- A member with its value. -/
inductive Member
  | region (r : Region)
  | constRegion0D (value : Nat)
  | int (n : Int)
  | double (e : Nat)
  | vectorInt (v : List Int)
  | vectorDouble (v : List Nat)
  | dynamicTaskPtr

def Member.type : Member → MemberType
  | .region r => match r.view.sourceInfo with
    | none => .regionMatrix r.view.D
    | some _ => .regionMatrix0D
  | .constRegion0D _ => .constRegionMatrix0D
  | .int _ => .int
  | .double _ => .double
  | .vectorInt _ => .vectorInt
  | .vectorDouble _ => .vectorDouble
  | .dynamicTaskPtr => .dynamicTaskPtr

/-- What a member adds to `_sz`. -/
def Member.serialSize (w : World) : Member → Nat
  | .region r => r.serialSize w
  | .constRegion0D _ => 8
  | .int _ => 4
  | .double _ => 8
  | .vectorInt v => 8 + 4 * v.length
  | .vectorDouble v => 8 + 8 * v.length
  | .dynamicTaskPtr => 0

def Member.serialize (s : Hosts) : Member → Option Buffer
  | .region r => r.serialize s
  | .constRegion0D value => some (Value.element value).bytes
  | .int n => some (Value.int n).bytes
  | .double e => some (Value.element e).bytes
  | .vectorInt v => some ((Value.size v.length).bytes ++ ints v)
  | .vectorDouble v => some ((Value.size v.length).bytes ++ elements v)
  | .dynamicTaskPtr => some []

def MemberType.unserialize (self : HostPid) (fresh : Fresh) (s : Hosts) :
    MemberType → Reader Byte (Hosts × Member)
  | .regionMatrix D => do
      let (s', r) ← PbRegionSerial.unserialize self fresh D s
      pure (s', .region r)
  | .regionMatrix0D => do
      let (s', r) ← unserialize0D self fresh s
      pure (s', .region r)
  | .constRegionMatrix0D => do
      let value ← readElement
      pure (s, .constRegion0D value)
  | .int => do
      let n ← readInt
      pure (s, .int n)
  | .double => do
      let e ← readElement
      pure (s, .double e)
  | .vectorInt => do
      let n ← readSize
      let v ← times readInt n
      pure (s, .vectorInt v)
  | .vectorDouble => do
      let n ← readSize
      let v ← times readElement n
      pure (s, .vectorDouble v)
  | .dynamicTaskPtr => pure (s, .dynamicTaskPtr)

/-- A byte of the buffer that nothing was written to. -/
def unwritten : Byte := ⟨.bool false, 1⟩

/-- What is left of a member's bytes once `_buf` has moved on by `n`. -/
def place (n : Nat) (bytes : Buffer) : Buffer :=
  bytes.take n ++ List.replicate (n - bytes.length) unwritten

/-- `serialSize()` of the task. -/
def serialSizeAll (w : World) (ms : List Member) : Nat := (ms.map (Member.serialSize w)).sum

/-- `serialize(_buf, _host)` of the task. -/
def serializeAll (s : Hosts) : List Member → Option Buffer
  | [] => some []
  | m :: ms => do
      let bytes ← m.serialize s
      let rest ← serializeAll s ms
      pure (place (m.serialSize s.world) bytes ++ rest)

/-- `unserialize(_buf, _host)` of the task, `fresh` being the addresses for each member. -/
def unserializeAll (self : HostPid) :
    List (MemberType × Fresh) → Hosts → Buffer → Option ((Hosts × List Member) × Buffer)
  | [], s, buf => some ((s, []), buf)
  | (t, fresh) :: ts, s, buf => do
      let ((s', m), _) ← t.unserialize self fresh s buf
      let ((s'', ms), rest) ← unserializeAll self ts s' (buf.drop (m.serialSize s'.world))
      pure ((s'', m :: ms), rest)

end PbRegionSerial
