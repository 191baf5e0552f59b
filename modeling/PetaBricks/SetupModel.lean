import PetaBricks.RemoteChannelProofs
import PetaBricks.SocketNetProofs

/-! # Connection set-up — the hosts of a distributed run find each other

    `spawnDistributedNodes` on the master and `distributedSlaveLoop` on the slaves, with
    what they call of `RemoteHost` and `RemoteHostDB`, up to the start of the listener
    threads.  Machine 0 is the master.  Each slave connects to it; the master then makes
    the slaves connect to each other, one pair at a time.

    A socket is a connection, or none.  `readAll` and `writeAll` carry whole messages; a
    message of another kind than the reader expects counts as a failed assertion.  The
    connection attempts that `connectMasterControl` repeats until the master listens are
    one attempt. -/

namespace PbSetup

open PbSocketNet
open PbRemoteChannel (dataChans)

/-- `HostPid`. -/
structure HostPid where
  hostid : Int
  pid : Int
  deriving DecidableEq, Repr

/-- `operator<`. -/
def HostPid.lt (a b : HostPid) : Bool :=
  if a.hostid = b.hostid then decide (a.pid < b.pid) else decide (a.hostid < b.hostid)

/-- The `MessageTypes` of set-up. -/
inductive MessageType where
  | HELLO_CONTROL
  | HELLO_DATA
  | SETUP_MASTER
  | SETUP_CONNECT
  | SETUP_ACCEPT
  | SETUP_ACK
  | SETUP_END
  deriving DecidableEq, Repr

structure HelloMessage where
  type : MessageType
  id : HostPid
  chan : Nat
  port : Int
  roll : Nat
  host : String
  deriving DecidableEq, Repr

structure SetupMessage where
  type : MessageType
  host : String
  port : Int
  allocHostNumber : Int
  deriving DecidableEq, Repr

structure SetupAckMessage where
  type : MessageType
  deriving DecidableEq, Repr

inductive Message where
  | hello (m : HelloMessage)
  | setup (m : SetupMessage)
  | ack (m : SetupAckMessage)
  deriving DecidableEq, Repr

/-- A `JSockAddr` and a port. -/
abbrev Addr := String × Int

/-- `JSocket`: `none` is invalid. -/
abbrev Socket := Option (Conn Nat)

/-- What a process of the run executes. -/
abbrev Code (R : Type) := PbSocketNet.Prog Nat Addr Message R

/-- What the calls of a process give: `HostPid::self()`, `host()` and `port()` of its
    database, and the random number of its handshake with each host. -/
structure Machine where
  self : HostPid
  host : String
  port : Int
  roll : Nat → Nat

/-- `RemoteHost`, without its objects and locks. -/
structure RemoteHost where
  control : Socket
  data : Nat → Socket
  scratchSockets : Nat → Socket
  id : HostPid
  lastchan : Nat
  remotePort : Int
  connectName : String
  shouldGc : Bool

/-- `RemoteHost(connectName)`, which leaves `_id` as it is. -/
def RemoteHost.new (connectName : String) : RemoteHost where
  control := none
  data := fun _ => none
  scratchSockets := fun _ => none
  id := ⟨0, 0⟩
  lastchan := 0
  remotePort := -1
  connectName := connectName
  shouldGc := false

/-- `RemoteHostDB`: its hosts, in order. -/
structure RemoteHostDB where
  hosts : List RemoteHost
  allocHostNumber : Int

/-! ## Sockets -/

/-- `JASSERT`. -/
def jassert (b : Bool) : Code Unit := if b then .done () else .fail

def writeAll : Socket → Message → Code Unit
  | none, _ => .fail
  | some c, m => .send c m (.done ())

def readAll : Socket → Code Message
  | none => .fail
  | some c => .recv c .done

def readHello (s : Socket) : Code HelloMessage :=
  (readAll s).bind fun
    | .hello m => .done m
    | _ => .fail

def readSetup (s : Socket) : Code SetupMessage :=
  (readAll s).bind fun
    | .setup m => .done m
    | _ => .fail

def readAck (s : Socket) : Code SetupAckMessage :=
  (readAll s).bind fun
    | .ack m => .done m
    | _ => .fail

/-! ## One host -/

namespace RemoteHost

/-- `_scratchSockets[i] = s.accept()` for `n` sockets from `first` on. -/
def acceptScratch (h : RemoteHost) (first n : Nat) : Code RemoteHost :=
  Prog.loop n h fun h i => .accept fun c =>
    .done { h with scratchSockets := Function.update h.scratchSockets (first + i) (some c) }

/-- `_data[i].connect(a, p)`. -/
def connectData (h : RemoteHost) (a : Addr) : Code RemoteHost :=
  Prog.loop dataChans h fun h i => .connect a fun c =>
    .done { h with data := Function.update h.data i (some c) }

/-- The hello message on the control socket. -/
def helloControl (e : Machine) (myRoll : Nat) : HelloMessage :=
  ⟨.HELLO_CONTROL, e.self, dataChans, e.port, myRoll, e.host⟩

/-- The hello message on a data socket. -/
def helloData (e : Machine) (myRoll i : Nat) : HelloMessage :=
  ⟨.HELLO_DATA, e.self, i, e.port, myRoll, ""⟩

/-- Send Hello Messages. -/
def sendHello (e : Machine) (myRoll : Nat) (h : RemoteHost) : Code Unit := do
  writeAll h.control (.hello (helloControl e myRoll))
  Prog.loop dataChans () fun _ i => writeAll (h.data i) (.hello (helloData e myRoll i))

/-- The test for `_shouldGc`. -/
def gcWins (e : Machine) (myRoll : Nat) (id : HostPid) (roll : Nat) : Bool :=
  if myRoll ≠ roll then decide (myRoll < roll) else e.self.lt id

/-- Receive Hello Messages, on the side that connected. -/
def recvHello (e : Machine) (myRoll : Nat) (h : RemoteHost) : Code RemoteHost := do
  let msg ← readHello h.control
  jassert (msg.type = .HELLO_CONTROL && msg.id ≠ e.self && msg.chan = dataChans)
  let h := { h with
    id := msg.id
    remotePort := msg.port
    connectName := msg.host
    shouldGc := gcWins e myRoll msg.id msg.roll }
  Prog.loop dataChans () fun _ i => do
    let dmsg ← readHello (h.data i)
    jassert (dmsg.type = .HELLO_DATA && dmsg.id = h.id && dmsg.chan = i)
  pure h

/-- `set _id`, on the side that accepted: all sockets are of one host. -/
def setId (e : Machine) (h : RemoteHost) (i : Nat) (id : HostPid) : Code RemoteHost :=
  if i = 0 then do
    jassert (id ≠ e.self)
    pure { h with id := id }
  else do
    jassert (id = h.id)
    pure h

/-- The socket goes where its hello message says. -/
def sortSocket (e : Machine) (myRoll : Nat) (h : RemoteHost) (s : Socket)
    (msg : HelloMessage) : Code RemoteHost :=
  if msg.type = .HELLO_CONTROL then do
    jassert (msg.chan = dataChans)
    pure { h with
      control := s
      connectName := msg.host
      remotePort := msg.port
      shouldGc := gcWins e myRoll h.id msg.roll }
  else if msg.type = .HELLO_DATA then do
    jassert (msg.chan < dataChans)
    pure { h with data := Function.update h.data msg.chan s }
  else .fail

/-- Receive a Hello Message, on the side that accepted. -/
def sortHello (e : Machine) (myRoll : Nat) (h : RemoteHost) (i : Nat) : Code RemoteHost := do
  let msg ← readHello (h.scratchSockets i)
  let h ← setId e h i msg.id
  sortSocket e myRoll h (h.scratchSockets i) msg

def handshake (e : Machine) (myRoll : Nat) (isConnect : Bool) (h : RemoteHost) :
    Code RemoteHost :=
  if isConnect then do
    sendHello e myRoll h
    recvHello e myRoll h
  else do
    let h ← Prog.loop (dataChans + 1) h (sortHello e myRoll)
    sendHello e myRoll h
    pure h

def accept (e : Machine) (myRoll : Nat) (h : RemoteHost) : Code RemoteHost := do
  let h ← h.acceptScratch 0 (dataChans + 1)
  handshake e myRoll false { h with lastchan := 1 }

def connect (e : Machine) (myRoll : Nat) (a : Addr) (h : RemoteHost) : Code RemoteHost := do
  let h ← .connect a fun c => .done { h with control := some c }
  let h ← h.connectData a
  handshake e myRoll true { h with lastchan := 0 }

def acceptMasterControl (h : RemoteHost) : Code RemoteHost := h.acceptScratch 0 1

def connectMasterControl (a : Addr) (h : RemoteHost) : Code RemoteHost :=
  .connect a fun c => .done { h with control := some c }

def acceptMasterData (e : Machine) (myRoll : Nat) (h : RemoteHost) : Code RemoteHost := do
  let h ← h.acceptScratch 1 dataChans
  handshake e myRoll false { h with lastchan := 1 }

def connectMasterData (e : Machine) (myRoll : Nat) (a : Addr) (h : RemoteHost) :
    Code RemoteHost := do
  let h ← h.connectData a
  handshake e myRoll true { h with lastchan := 0 }

def setupRemoteConnection (a b : RemoteHost) : Code Unit := do
  let amsg : SetupMessage := ⟨.SETUP_CONNECT, a.connectName, a.remotePort, -1⟩
  let bmsg : SetupMessage := ⟨.SETUP_ACCEPT, b.connectName, b.remotePort, -1⟩
  -- a goes to b, b goes to a
  writeAll a.control (.setup bmsg)
  writeAll b.control (.setup amsg)
  let aack ← readAck a.control
  let back ← readAck b.control
  jassert (aack.type = .SETUP_ACK)
  jassert (back.type = .SETUP_ACK)

def setupRemoteConnectionWithMaster (e : Machine) (myRoll : Nat) (allocHostNumber : Int)
    (h : RemoteHost) : Code RemoteHost := do
  writeAll (h.scratchSockets 0) (.setup ⟨.SETUP_MASTER, e.host, e.port, allocHostNumber⟩)
  let h ← h.acceptMasterData e myRoll
  let ack ← readAck h.control
  jassert (ack.type = .SETUP_ACK)
  pure h

def setupEnd (h : RemoteHost) : Code Unit := do
  writeAll h.control (.setup ⟨.SETUP_END, "", 0, 0⟩)
  let ack ← readAck h.control
  jassert (ack.type = .SETUP_ACK)

end RemoteHost

/-! ## All hosts -/

namespace RemoteHostDB

def empty : RemoteHostDB := ⟨[], 0⟩

/-- `host(i)`. -/
def host (db : RemoteHostDB) (i : Nat) : Code RemoteHost :=
  match db.hosts[i]? with
  | none => .fail
  | some h => .done h

/-- Write back what a call on `host(i)` made of it. -/
def setHost (db : RemoteHostDB) (i : Nat) (h : RemoteHost) : RemoteHostDB :=
  { db with hosts := db.hosts.set i h }

def push_back (db : RemoteHostDB) (h : RemoteHost) : RemoteHostDB :=
  { db with hosts := db.hosts ++ [h] }

/-- `allocHost(i)`. -/
def allocHost (db : RemoteHostDB) (i : Nat) : Option RemoteHost :=
  if (i : Int) < db.allocHostNumber then db.hosts[i]?
  else if (i : Int) = db.allocHostNumber then none
  else db.hosts[i - 1]?

def accept (e : Machine) (db : RemoteHostDB) (host : String) (isMaster : Bool) :
    Code RemoteHostDB := do
  let h ← if isMaster then (RemoteHost.new host).acceptMasterControl
    else (RemoteHost.new host).accept e (e.roll db.hosts.length)
  pure (db.push_back h)

def connect (e : Machine) (db : RemoteHostDB) (host : String) (port : Int) (isMaster : Bool) :
    Code RemoteHostDB := do
  let h ← if isMaster then (RemoteHost.new host).connectMasterControl (host, port)
    else (RemoteHost.new host).connect e (e.roll db.hosts.length) (host, port)
  pure (db.push_back h)

/-- The pass of the first loop of `setupConnectAllPairs`. -/
def setupMaster (e : Machine) (db : RemoteHostDB) (a : Nat) : Code RemoteHostDB := do
  let h ← db.host a
  let h ← h.setupRemoteConnectionWithMaster e (e.roll a) (a + 1)
  pure (db.setHost a h)

/-- The pass of the second loop. -/
def setupPair (db : RemoteHostDB) (a b : Nat) : Code Unit := do
  let ha ← db.host a
  let hb ← db.host b
  RemoteHost.setupRemoteConnection ha hb

/-- The pass of the third loop. -/
def setupLast (db : RemoteHostDB) (a : Nat) : Code Unit := do
  let h ← db.host a
  h.setupEnd

def setupConnectAllPairs (e : Machine) (db : RemoteHostDB) : Code RemoteHostDB := do
  let n := db.hosts.length
  let db ← Prog.loop n { db with allocHostNumber := 0 } (setupMaster e)
  Prog.loop n () fun _ a =>
    Prog.loop (n - (a + 1)) () fun _ i => db.setupPair a (a + 1 + i)
  Prog.loop n () fun _ a => db.setupLast a
  pure db

/-- What `setupLoop` does about a message; `this` is host 0. -/
def setupHandle (e : Machine) (db : RemoteHostDB) (msg : SetupMessage) : Code RemoteHostDB :=
  match msg.type with
  | .SETUP_MASTER => do
      let this ← db.host 0
      let this ← this.connectMasterData e (e.roll 0) (msg.host, msg.port)
      pure { db.setHost 0 this with allocHostNumber := msg.allocHostNumber }
  | .SETUP_CONNECT => db.connect e msg.host msg.port false
  | .SETUP_ACCEPT => db.accept e msg.host false
  | .SETUP_END => pure db
  | _ => .fail

/-- `setupLoop`, for at most the given number of messages. -/
def setupLoop (e : Machine) : Nat → RemoteHostDB → Code RemoteHostDB
  | 0, _ => .fail
  | fuel + 1, db => do
      let this ← db.host 0
      let msg ← readSetup this.control
      let db ← setupHandle e db msg
      let this ← db.host 0
      writeAll this.control (.ack ⟨.SETUP_ACK⟩)
      if msg.type = .SETUP_END then pure db else setupLoop e fuel db

end RemoteHostDB

/-! ## The processes -/

/-- The loop of `spawnDistributedNodes` over the lines of the hosts file, each without its
    comment and blanks. -/
def readHosts (e : Machine) (PBS : Bool) :
    List String → Bool → Bool → RemoteHostDB → Code RemoteHostDB
  | [], _, _, db => .done db
  | line :: rest, hadlocal, firsthost, db => do
      let dat := if PBS && firsthost then "localhost" else line
      let db ← if dat ≠ "" && dat ≠ "localhost" then db.accept e dat true else pure db
      let db ← if dat = "localhost" && hadlocal then db.accept e dat true else pure db
      let hadlocal := hadlocal || dat = "localhost"
      jassert hadlocal
      readHosts e PBS rest hadlocal (firsthost && !PBS) db

def spawnDistributedNodes (e : Machine) (PBS : Bool) (lines : List String) :
    Code RemoteHostDB := do
  let db ← readHosts e PBS lines false true .empty
  db.setupConnectAllPairs e

def distributedSlaveLoop (e : Machine) (slaveHost : String) (slavePort : Int) (fuel : Nat) :
    Code RemoteHostDB := do
  let db ← RemoteHostDB.empty.connect e slaveHost slavePort true
  db.setupLoop e fuel

/-- The machines, the hosts file, and who listens at an address. -/
structure World where
  machine : Nat → Machine
  resolve : Addr → Option Nat
  PBS : Bool
  lines : List String

/-- Each line after the first names a slave, unless it is blank. -/
def World.slaves (w : World) : Nat := (w.lines.tail.filter (· ≠ "")).length

/-- The processes before the first one starts. -/
def World.start (w : World) (fuel : Nat) : Net Nat Addr Message RemoteHostDB := fun p =>
  { prog :=
      if p = 0 then spawnDistributedNodes (w.machine 0) w.PBS w.lines
      else if p ≤ w.slaves then
        distributedSlaveLoop (w.machine p) (w.machine 0).host (w.machine 0).port fuel
      else .done .empty
    mem := ⟨0, fun _ => []⟩
    backlog := 0 }

end PbSetup
