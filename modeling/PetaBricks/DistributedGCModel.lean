import Mathlib.Data.List.Basic
import Mathlib.Logic.Function.Basic
import PetaBricks.TransitionProofs

/-! # Distributed garbage collection — two hosts and the objects they share

    A remote object has an end on each of two hosts.  `createRemoteObject` makes
    the first end and asks the other host for the second one; the acknowledgement,
    or any first message, tells the first end where its peer is.  Each host keeps
    its ends in a table (`_objects`), which holds one reference to each.

    A `DistributedGC` is such an object too.  When an end of one is created it takes
    the table of its host under a new generation number, flushes, waits for the
    other side to have flushed, picks the objects nobody holds and nobody has
    written to since, and tells the other side which.  What both sides picked is
    dropped, the rest goes back into the table.

    A message is read from the socket by one thread and handled when that thread
    gets the lock of its object, so messages that were read can be handled in any
    order.  The reading thread stamps the object and counts the message as pending
    before it lets the next message be read.  What a thread is doing for an object
    is an item of its `work`, each of them with a reference to the object.

    The two ends of an object have one name, a `Pair`, and a pointer to an end is
    that name; the null pointer is `none`.  `data` stands for every message with a
    source other than the two that create: signals, broadcasts and completions carry
    the same pointers.  Generation numbers are not bounded. -/

namespace PbDistributedGC

open PbTransition

/-- One of the two hosts. -/
abbrev Host := Bool

/-- A remote object: its name and what its class fixes. -/
structure Pair where
  id : Nat
  collector : Bool
  skipCreateAck : Bool
  deriving DecidableEq, Repr

/-- A pointer to an end on the other host. -/
abbrev EncodedPtr := Option Pair

/-- One end of a remote object. -/
structure End where
  host : Host
  pair : Pair
  deriving DecidableEq, Repr

/-- The other end. -/
def End.peer (e : End) : End := ⟨!e.host, e.pair⟩

@[simp] theorem End.peer_peer (e : End) : e.peer.peer = e := by
  cases e
  simp [End.peer]

@[simp] theorem End.peer_host (e : End) : e.peer.host = !e.host := rfl

@[simp] theorem End.peer_pair (e : End) : e.peer.pair = e.pair := rfl

/-- The argument of `onNotify`; only a collector looks at it. -/
inductive NotifyStages where
  | FLUSH_MSGS
  | DO_SCAN
  | ABORT_GC
  deriving DecidableEq, Repr

inductive Body where
  | create
  | createAck
  | data (ptrs : List EncodedPtr)
  | notify (stage : NotifyStages)
  deriving DecidableEq, Repr

/-- A message; `sender` and `stamp`, the generation of the host it was sent from,
    are not on the wire. -/
structure Msg where
  body : Body
  srcptr : EncodedPtr
  dstptr : EncodedPtr
  sender : Pair
  stamp : Nat
  deriving DecidableEq, Repr

/-- What a thread is about to do for an object. -/
inductive Work where
  /-- make the object a CREATE message asked for -/
  | construct
  /-- handle a message -/
  | message (m : Msg)
  /-- `onCreated` of a collector -/
  | swap
  | flush
  /-- go on scanning, with the response so far -/
  | scan (response : List EncodedPtr)
  /-- send the response, without the lock -/
  | respond (response : List EncodedPtr)
  | abort
  /-- put the object into the table, in the thread that handles the CREATE message or
      in the one that called `createRemoteObject` -/
  | addObject (received : Bool)
  deriving DecidableEq, Repr

/-- The thread holds the lock of the object. -/
def Work.locks : Work → Bool
  | construct | swap | flush | scan _ | abort => true
  | _ => false

/-- The thread handles a message. -/
def Work.pending : Work → Bool
  | addObject received => received
  | _ => true

/-- The fields of a `RemoteObject`.  `refs` are the references beside those of the
    table and of the threads in `work`. -/
structure RemoteObject where
  created : Bool
  remoteObj : EncodedPtr
  refs : Nat
  lastMsgGen : Nat
  work : List Work
  deriving DecidableEq

namespace RemoteObject

/-- No object. -/
def blank : RemoteObject := ⟨false, none, 0, 0, []⟩

/-- For an object that is in a table. -/
def refCount (o : RemoteObject) : Nat := 1 + o.refs + o.work.length

def pendingMessages (o : RemoteObject) : Nat := o.work.countP Work.pending

def maybeDeletable (o : RemoteObject) (gen : Nat) : Bool :=
  o.created && o.refCount = 1 && o.lastMsgGen < gen && o.pendingMessages = 0

/-- Somebody who can use the object has a reference. -/
def held (o : RemoteObject) : Bool := 0 < o.refs || (o.created && !o.work.isEmpty)

end RemoteObject

/-- The fields of a `DistributedGC`, with `tmp` of `scan`.  The second half is history:
    whether the table was taken, the scan asked for and the other side heard; what was
    taken, picked and dropped. -/
structure Collector where
  gen : Nat
  objects : List Pair
  tmp : List Pair
  objectsMaybeDead : List Pair
  complete : Bool
  swapped : Bool
  asked : Bool
  heard : Bool
  collected : List Pair
  marked : List Pair
  dropped : List Pair
  deriving DecidableEq

namespace Collector

def blank : Collector := ⟨0, [], [], [], false, false, false, false, [], [], []⟩

/-- The objects a collector has taken and not given back. -/
def held (g : Collector) : List Pair := g.tmp ++ g.objects ++ g.objectsMaybeDead

end Collector

/-- The state of the two hosts.  `channel h` is the control socket towards `h`. -/
structure State where
  currentGen : Host → Nat
  table : Host → List Pair
  channel : Host → List Msg
  object : End → RemoteObject
  collector : End → Collector
  made : End → Bool
  pairs : List Pair

namespace State

def initial : State where
  currentGen := fun _ => 0
  table := fun _ => []
  channel := fun _ => []
  object := fun _ => .blank
  collector := fun _ => .blank
  made := fun _ => false
  pairs := []

def setObject (s : State) (e : End) (o : RemoteObject) : State :=
  { s with object := Function.update s.object e o }

def setCollector (s : State) (e : End) (g : Collector) : State :=
  { s with collector := Function.update s.collector e g }

/-- Add an item of work. -/
def addWork (s : State) (e : End) (w : Work) : State :=
  s.setObject e { s.object e with work := (s.object e).work ++ [w] }

/-- An item of work is done. -/
def endWork (s : State) (e : End) (w : Work) : State :=
  s.setObject e { s.object e with work := (s.object e).work.erase w }

/-! ## Sending -/

/-- Write a message; with a source pointer the source is stamped. -/
def sendMsg (s : State) (e : End) (body : Body) (srcptr dstptr : EncodedPtr) : State :=
  let m : Msg := ⟨body, srcptr, dstptr, e.pair, s.currentGen e.host⟩
  let s := { s with
    channel := Function.update s.channel (!e.host) (s.channel (!e.host) ++ [m]) }
  if srcptr.isSome then
    s.setObject e { s.object e with lastMsgGen := s.currentGen e.host }
  else s

def sendData (s : State) (e : End) (ptrs : List EncodedPtr) : State :=
  s.sendMsg e (.data ptrs) (some e.pair) (s.object e).remoteObj

/-- The one message of an object without a source pointer. -/
def remoteNotify (s : State) (e : End) (stage : NotifyStages) : State :=
  s.sendMsg e (.notify stage) none (s.object e).remoteObj

/-- Make an end and ask the other host for its peer.  The caller keeps a reference,
    except to a collector. -/
def createRemoteObject (s : State) (e : End) : State :=
  let o : RemoteObject :=
    ⟨false, none, if e.pair.collector then 0 else 1, 0, [.addObject false]⟩
  let s := { s with
    made := Function.update s.made e true
    pairs := e.pair :: s.pairs }
  (s.setObject e o).sendMsg e .create (some e.pair) none

/-! ## Receiving -/

/-- Read a message: stamp its object and count it as pending.  A message to nobody that
    is not a CREATE stops the host. -/
def recv (s : State) (h : Host) : Option State :=
  match s.channel h with
  | [] => none
  | m :: rest =>
      let s := { s with channel := Function.update s.channel h rest }
      match m.dstptr, m.body, m.srcptr with
      | some k, _, _ =>
          some (s.setObject ⟨h, k⟩ { s.object ⟨h, k⟩ with
            work := (s.object ⟨h, k⟩).work ++ [.message m]
            lastMsgGen := s.currentGen h })
      | none, .create, some k => some (s.addWork ⟨h, k⟩ .construct)
      | _, _, _ => none

/-- Make the object of a CREATE message and acknowledge it. -/
def construct (s : State) (e : End) : State :=
  let o : RemoteObject :=
    ⟨true, some e.pair, 0, s.currentGen e.host,
      if e.pair.collector then [.swap, .addObject true] else [.addObject true]⟩
  let s := { s with made := Function.update s.made e true }
  let s := s.setObject e o
  if e.pair.skipCreateAck then s else s.sendMsg e .createAck (some e.pair) (some e.pair)

/-- The first message of an object that waits to be created tells it its peer. -/
def openWith (s : State) (e : End) (m : Msg) : State :=
  s.setObject e { s.object e with
    created := true
    remoteObj := m.srcptr
    work := if e.pair.collector then .swap :: (s.object e).work else (s.object e).work }

/-! ## Collecting -/

/-- Take the table under a new generation. -/
def swapObjects (s : State) (e : End) : State :=
  let g := s.collector e
  let gen := s.currentGen e.host + 1
  let objects := s.table e.host
  let s := { s with
    currentGen := Function.update s.currentGen e.host gen
    table := Function.update s.table e.host g.objects }
  s.setCollector e
    { g with gen := gen, objects := objects, swapped := true, collected := objects }

def addObject (s : State) (e : End) : State :=
  { s with table := Function.update s.table e.host (s.table e.host ++ [e.pair]) }

/-- `readdObjects` of both lists. -/
def finishup (s : State) (e : End) : State :=
  let g := s.collector e
  let table := s.table e.host ++ g.objects ++ g.objectsMaybeDead
  let s := { s with table := Function.update s.table e.host table }
  s.setCollector e { g with objects := [], objectsMaybeDead := [], complete := true }

/-- `scan` puts the objects aside before it looks at them. -/
def beginScan (s : State) (e : End) : State :=
  let g := s.collector e
  (s.setCollector e { g with objects := [], tmp := g.objects, asked := true }).addWork e
    (.scan [])

/-- Look at the next object. -/
def scanNext (s : State) (e : End) (response : List EncodedPtr) : State :=
  let g := s.collector e
  match g.tmp with
  | [] =>
      (s.endWork e (.scan response)).addWork e
        (if response = [] then .abort else .respond response)
  | k :: rest =>
      let o := s.object ⟨e.host, k⟩
      if o.maybeDeletable g.gen then
        let s := (s.endWork e (.scan response)).addWork e (.scan (response ++ [o.remoteObj]))
        s.setCollector e { g with
          tmp := rest
          objectsMaybeDead := g.objectsMaybeDead ++ [k]
          marked := g.marked ++ [k] }
      else s.setCollector e { g with tmp := rest, objects := g.objects ++ [k] }

/-- Drop what both sides picked and give the rest back. -/
def onRecv (s : State) (e : End) (remoteDead : List EncodedPtr) : State :=
  let g := s.collector e
  let s := s.setCollector e { g with
    objects := g.objects ++ g.objectsMaybeDead.filter (fun k => some k ∉ remoteDead)
    objectsMaybeDead := []
    heard := true
    dropped := g.dropped ++ g.objectsMaybeDead.filter (fun k => some k ∈ remoteDead) }
  s.finishup e

def onNotify (s : State) (e : End) : NotifyStages → State
  | .FLUSH_MSGS => s.remoteNotify e .DO_SCAN
  | .DO_SCAN => s.beginScan e
  | .ABORT_GC => (s.setCollector e { s.collector e with heard := true }).finishup e

/-- What a collector does with a message. -/
def handle (s : State) (e : End) (m : Msg) : State :=
  match m.body with
  | .notify stage => s.onNotify e stage
  | .data ptrs => s.onRecv e ptrs
  | _ => s

/-! ## Steps -/

/-- An item of work can be done when no other thread has the lock it needs. -/
def canDo (s : State) (e : End) (w : Work) : Bool :=
  match w with
  | .message _ => (s.object e).work.all (fun v => !v.locks && v ≠ .addObject true)
  | .addObject true => (s.object e).work.all (fun v => !v.locks)
  | _ => true

/-- Do one item of work. -/
def doWork (s : State) (e : End) (w : Work) : Option State :=
  if w ∈ (s.object e).work ∧ s.canDo e w then
    match w with
    | .construct => some (s.construct e)
    | .message m =>
        if (s.object e).created then
          some (if e.pair.collector then (s.endWork e w).handle e m else s.endWork e w)
        else some (s.openWith e m)
    | .swap => some (((s.endWork e w).swapObjects e).addWork e .flush)
    | .flush => some ((s.endWork e w).remoteNotify e .FLUSH_MSGS)
    | .scan response => some (s.scanNext e response)
    | .respond response => some ((s.endWork e w).sendData e response)
    | .abort => some (((s.endWork e w).remoteNotify e .ABORT_GC).finishup e)
    | .addObject _ => some ((s.endWork e w).addObject e)
  else none

end State

/-- The steps of both hosts. -/
inductive Act where
  | createRemoteObject (e : End)
  | send (e : End) (ptrs : List EncodedPtr)
  | notify (e : End) (stage : NotifyStages)
  | retain (e : End)
  | release (e : End)
  | recv (h : Host)
  | work (e : End) (w : Work)
  deriving Repr

/-- An ordinary object somebody has a reference to, created, as sending waits for. -/
def State.usable (s : State) (e : End) : Bool :=
  !e.pair.collector && (s.object e).created && (s.object e).held

/-- One step.  Objects are sent and referenced by those who have a reference. -/
def step (s : State) : Act → Option State
  | .createRemoteObject e => if e.pair ∈ s.pairs then none else some (s.createRemoteObject e)
  | .send e ptrs => if s.usable e then some (s.sendData e ptrs) else none
  | .notify e stage => if s.usable e then some (s.remoteNotify e stage) else none
  | .retain e =>
      if !e.pair.collector && (s.object e).held then
        some (s.setObject e { s.object e with refs := (s.object e).refs + 1 })
      else none
  | .release e =>
      if 0 < (s.object e).refs then
        some (s.setObject e { s.object e with refs := (s.object e).refs - 1 })
      else none
  | .recv h => s.recv h
  | .work e w => s.doWork e w

/-- Another collector than the object itself has taken it, and it has neither sent a message
    with a source nor been sent one since. -/
def State.behind (s : State) (e : End) : Bool :=
  s.pairs.any (fun c => c ≠ e.pair ∧ e.pair ∈ (s.collector ⟨e.host, c⟩).held ∧
    (s.object e).lastMsgGen < (s.collector ⟨e.host, c⟩).gen)

/-- The steps that a NOTIFY cannot go wrong in: it is not sent by an object that is behind,
    and it does not create an object. -/
def allowed (s : State) : Act → Bool
  | .notify e _ => !s.behind e
  | .work e .flush => !s.behind e
  | .work e .abort => !s.behind e
  | .work e (.message m) =>
      if (s.object e).created then
        !(e.pair.collector && m.body = .notify .FLUSH_MSGS && s.behind e)
      else m.srcptr.isSome
  | _ => true

/-- The hosts, from before the first object. -/
def system : System State Act where
  init := fun s => s = State.initial
  next := step

end PbDistributedGC
